import StopTheWorld.Proofs.Deferral

namespace StopTheWorld

/-! What becomes of a deferred action once a call has taken it: the thread starts it, once, before the
call comes back, unless a deferred action that comes before it unwinds. -/

/-- Exactly one of the moments is such. -/
def OnceIn (such : Moment → Prop) (moments : List Moment) : Prop :=
  ∃ early moment late, moments = early ++ moment :: late ∧ such moment ∧
    ∀ other ∈ early ++ late, ¬ such other

/-- The thread starts the action from the drain on this stack, with so many left behind it. -/
structure Moment.Serves (thread : ThreadId) (below : List Frame) (record : RecordId)
    (action : Deferred) (behind : List Deferred) (moment : Moment) : Prop where
  runs : moment.move = .run thread
  drain : ∃ d, moment.world.stack thread = .drain d :: below ∧ d.record = record ∧
    d.queue = action :: behind
  noted : ∃ owner, .deferred record action.tag owner ∈ moment.notes
  begins : ∃ next d, moment.world.move moment.move = some (next, moment.notes) ∧
    next.stack thread = .script { rest := action.script } :: .drain d :: below

/-- A deferred action that the drain on this stack has started, when more than so many were left
behind it, unwinds, and the drain with it. -/
structure Moment.Drops (thread : ThreadId) (below : List Frame) (behind : List Deferred)
    (moment : Moment) : Prop where
  runs : moment.move = .run thread
  unwinds : ∃ frame above d effect message,
    moment.world.stack thread = frame :: (above ++ .drain d :: below) ∧
    behind.length < d.queue.length ∧ frame.advance thread moment.world = some effect ∧
    effect.control = .unwind message ∧
    effect.control.stack (above ++ .drain d :: below) = Frame.unwind message below

namespace Attendance

/-- The stack of a thread that has taken the action, stage by stage. -/
inductive Serving (a : Attendance) (r : Resuming) (record : RecordId) (action : Deferred)
    (behind : List Deferred) (later : List Moment) : List Frame → Prop
  | waits {above : List Frame} {d : Drain} {ahead : List Deferred} (own : d.record = record)
      (run : d.point = .run) (queue : d.queue = ahead ++ action :: behind)
      (yet : ∀ moment ∈ later,
        ¬ moment.Serves a.thread (.resuming r :: a.tail) record action behind) :
      Serving a r record action behind later (above ++ .drain d :: .resuming r :: a.tail)
  | served {above : List Frame} {d : Drain} {ahead : List Deferred} (run : d.point = .run)
      (queue : behind = ahead ++ d.queue)
      (once : OnceIn (Moment.Serves a.thread (.resuming r :: a.tail) record action behind) later) :
      Serving a r record action behind later (above ++ .drain d :: .resuming r :: a.tail)
  | resumes {r' : Resuming} (point : r'.point = .drained)
      (once : OnceIn (Moment.Serves a.thread (.resuming r :: a.tail) record action behind) later) :
      Serving a r record action behind later (.resuming r' :: a.tail)
  | answers (drives : a.drives = true)
      (once : OnceIn (Moment.Serves a.thread (.resuming r :: a.tail) record action behind) later) :
      Serving a r record action behind later (.answer (.succeeded .nothing) :: a.base)

end Attendance

section

variable {w : World} {thread : ThreadId} {frame : Frame} {rest below : List Frame} {effect : Effect}
  {record : RecordId} {a : Attendance} {r : Resuming} {later : List Moment} {moment : Moment}
  {action : Deferred} {behind : List Deferred}

namespace OnceIn

variable {such : Moment → Prop}

theorem snoc (once : OnceIn such later) (other : ¬ such moment) :
    OnceIn such (later ++ [moment]) := by
  obtain ⟨early, found, late, rfl, here, never⟩ := once
  refine ⟨early, found, late ++ [moment], by simp, here, fun x mem => ?_⟩
  rw [← List.append_assoc] at mem
  obtain mem | last := List.mem_append.mp mem
  · exact never x mem
  · exact List.mem_singleton.mp last ▸ other

theorem last (never : ∀ x ∈ later, ¬ such x) (here : such moment) : OnceIn such (later ++ [moment]) :=
  ⟨later, moment, [], rfl, here, by simpa using never⟩

end OnceIn

theorem never_snoc {such : Moment → Prop} (never : ∀ x ∈ later, ¬ such x) (other : ¬ such moment) :
    ∀ x ∈ later ++ [moment], ¬ such x := by
  rw [List.forall_mem_append]
  exact ⟨never, by simpa using other⟩

/-- Only a thread that is about to go on with the drain can start the action. -/
theorem Moment.Serves.stack (serves : moment.Serves thread below record action behind)
    (stack : moment.world.stack thread = frame :: rest) :
    ∃ d, frame = .drain d ∧ rest = below ∧ d.queue = action :: behind := by
  obtain ⟨d, drain, -, queue⟩ := serves.drain
  obtain ⟨rfl, rfl⟩ := List.cons.inj (stack.symm.trans drain)
  exact ⟨d, rfl, rfl, queue⟩

/-- A drain goes on, or is done, or is left by the unwinding of what it has started. -/
theorem Frame.drains {above : List Frame} {d : Drain} (run : d.point = .run)
    (parts : frame :: rest = above ++ .drain d :: below)
    (step : frame.advance thread w = some effect) :
    (above = [] ∧ d.queue = [] ∧ effect.control = .reply (.count d.ran)) ∨
    (∃ first left, above = [] ∧ d.queue = first :: left ∧
      effect.control.stack rest = [.script { rest := first.script }] ++
        .drain { d with queue := left, ran := d.ran + 1, point := .run } :: below) ∨
    above ≠ [] ∧ ((∃ above', effect.control.stack rest = above' ++ .drain d :: below) ∨
      ∃ higher message, rest = higher ++ .drain d :: below ∧ effect.control = .unwind message ∧
        effect.control.stack rest = Frame.unwind message below) := by
  cases above with
  | nil =>
    obtain ⟨rfl, rfl⟩ := List.cons.inj parts
    cases queue : d.queue with
    | nil =>
      simp only [Frame.advance, Drain.advance, run, queue] at step
      obtain rfl := Option.some.inj step
      exact .inl ⟨rfl, rfl, rfl⟩
    | cons first left =>
      simp only [Frame.advance, Drain.advance, run, queue] at step
      obtain rfl := Option.some.inj step
      exact .inr (.inl ⟨first, left, rfl, rfl, rfl⟩)
  | cons top above =>
    simp only [List.cons_append, List.cons.injEq] at parts
    obtain ⟨rfl, rfl⟩ := parts
    refine .inr (.inr ⟨by simp, ?_⟩)
    obtain ⟨above', same⟩ | ⟨rfl, value, -, same⟩ | ⟨message, unwinds, same⟩ :=
      effect.control.stack_append above (.drain d) below
    · exact .inl ⟨above', same⟩
    · exact .inl ⟨[], by rw [same]; rfl⟩
    · exact .inr ⟨above, message, rfl, unwinds, same⟩

/-- A drain that goes on starts the first of the actions that are left. -/
theorem Moment.serves_of_drain {d : Drain} {v : World} {notes : List Note} (run : d.point = .run)
    (own : d.record = record) (queue : d.queue = action :: behind)
    (stack : w.stack thread = .drain d :: below)
    (moves : w.move (.run thread) = some (v, notes)) :
    Moment.Serves thread below record action behind ⟨w, .run thread, notes⟩ := by
  obtain ⟨frame, rest, effect, stack', step, rfl, rfl⟩ := World.step_eq_some moves
  obtain ⟨rfl, rfl⟩ := List.cons.inj (stack.symm.trans stack')
  simp only [Frame.advance, Drain.advance, run, queue] at step
  obtain rfl := Option.some.inj step
  have next : (w.setStack thread (.script { rest := action.script } ::
      .drain { d with queue := behind, ran := d.ran + 1, point := .run } :: below)).stack thread =
      .script { rest := action.script } ::
        .drain { d with queue := behind, ran := d.ran + 1, point := .run } :: below := by
    rw [World.stack_setStack, if_pos rfl]
  exact ⟨rfl, ⟨d, stack, own, queue⟩, ⟨w.globalOwner, by simp [own]⟩, _, _, moves, next⟩

/-- What unwinds out of a drain unwinds out of the call. -/
theorem Attendance.length_unwind_le (a : Attendance) (message : String) (r : Resuming) :
    (Frame.unwind message (.resuming r :: a.tail)).length ≤ a.base.length := by
  have le := Frame.length_unwind_le message a.base
  unfold Attendance.tail
  split
  · exact le
  · exact le

namespace Attendance.Serving

theorem base_lt_length (serving : a.Serving r record action behind later rest) :
    a.base.length < rest.length := by
  have le := a.length_base_le
  cases serving <;> simp <;> omega

theorem on (serving : a.Serving r record action behind later rest)
    (other : ¬ moment.Serves a.thread (.resuming r :: a.tail) record action behind) :
    a.Serving r record action behind (later ++ [moment]) rest := by
  cases serving with
  | waits own run queue yet => exact .waits own run queue (never_snoc yet other)
  | served run queue once => exact .served run queue (once.snoc other)
  | resumes point once => exact .resumes point (once.snoc other)
  | answers drives once => exact .answers drives (once.snoc other)

theorem rouse {frame' : Frame} (serving : a.Serving r record action behind later (frame :: rest))
    (rouses : frame.Rouses frame') : a.Serving r record action behind later (frame' :: rest) := by
  generalize shape : frame :: rest = stack at serving
  cases serving with
  | @waits above d ahead own run queue yet =>
    cases above with
    | nil =>
      obtain ⟨rfl, -⟩ := List.cons.inj shape
      cases rouses
    | cons top above =>
      obtain ⟨-, rfl⟩ := List.cons.inj shape
      show a.Serving r record action behind later ((frame' :: above) ++ .drain d :: _)
      exact .waits own run queue yet
  | @served above d ahead run queue once =>
    cases above with
    | nil =>
      obtain ⟨rfl, -⟩ := List.cons.inj shape
      cases rouses
    | cons top above =>
      obtain ⟨-, rfl⟩ := List.cons.inj shape
      show a.Serving r record action behind later ((frame' :: above) ++ .drain d :: _)
      exact .served run queue once
  | resumes | answers =>
    obtain ⟨rfl, -⟩ := List.cons.inj shape
    cases rouses

/-- A step of the participant takes the call on, or ends it. -/
theorem own (serving : a.Serving r record action behind later (frame :: rest))
    (point : r.point = .drained) (stack : w.stack a.thread = frame :: rest)
    (step : frame.advance a.thread w = some effect)
    (moved : moment = ⟨w, .run a.thread, effect.notes ++ effect.control.completion rest⟩) :
    a.Serving r record action behind (later ++ [moment]) (effect.control.stack rest) ∨
      (effect.control.stack rest).length ≤ a.base.length ∧
        (OnceIn (Moment.Serves a.thread (.resuming r :: a.tail) record action behind)
            (later ++ [moment]) ∨
          moment.Drops a.thread (.resuming r :: a.tail) behind ∧
            ∀ x ∈ later ++ [moment],
              ¬ x.Serves a.thread (.resuming r :: a.tail) record action behind) := by
  have world : moment.world.stack a.thread = frame :: rest := by rw [moved, stack]
  have other (differs : ∀ d, frame = .drain d → d.queue ≠ action :: behind) :
      ¬ moment.Serves a.thread (.resuming r :: a.tail) record action behind := by
    intro serves
    obtain ⟨d, same, -, queue⟩ := serves.stack world
    exact differs d same queue
  have deep {above : List Frame} {d : Drain} (high : above ≠ [])
      (parts : frame :: rest = above ++ .drain d :: .resuming r :: a.tail) :
      ¬ moment.Serves a.thread (.resuming r :: a.tail) record action behind := by
    intro serves
    obtain ⟨_, -, rfl, -⟩ := serves.stack world
    have lengths := congrArg List.length parts
    have positive := List.length_pos_iff.mpr high
    simp only [List.length_cons, List.length_append] at lengths
    omega
  subst moved
  generalize shape : frame :: rest = whole at serving
  cases serving with
  | @waits above d ahead own run queue yet =>
    obtain ⟨rfl, empty, -⟩ | ⟨first, left, rfl, taken, same⟩ |
        ⟨high, ⟨above', same⟩ | ⟨above', message, parts, unwinds, same⟩⟩ :=
      Frame.drains run shape step
    · simp [empty] at queue
    · obtain ⟨rfl, rfl⟩ := List.cons.inj shape
      rw [same]
      cases ahead with
      | nil =>
        obtain ⟨rfl, rfl⟩ := List.cons.inj (taken.symm.trans queue)
        exact .inl (.served rfl (List.nil_append _).symm
          (.last yet (Moment.serves_of_drain run own taken stack (World.move_of_advance stack step))))
      | cons head ahead =>
        obtain ⟨rfl, rfl⟩ := List.cons.inj (taken.symm.trans queue)
        refine .inl (.waits own rfl rfl (never_snoc yet (other fun d' drain queue' => ?_)))
        obtain rfl := Frame.drain.inj drain
        have lengths := congrArg List.length (queue.symm.trans queue')
        simp only [List.length_append, List.length_cons] at lengths
        omega
    · rw [same]
      exact .inl (.waits own run queue (never_snoc yet (deep high shape)))
    · refine .inr ⟨same ▸ a.length_unwind_le message r, .inr ⟨⟨rfl, frame, above', d, effect,
        message, parts ▸ stack, ?_, step, unwinds, parts ▸ same⟩, never_snoc yet (deep high shape)⟩⟩
      simp [queue]
      omega
  | @served above d ahead run queue once =>
    obtain ⟨rfl, empty, replies⟩ | ⟨first, left, rfl, taken, same⟩ |
        ⟨high, ⟨above', same⟩ | ⟨_, message, -, -, same⟩⟩ := Frame.drains run shape step
    · obtain ⟨rfl, rfl⟩ := List.cons.inj shape
      have same : effect.control.stack (.resuming r :: a.tail) =
          .resuming { r with ran := d.ran } :: a.tail := by
        rw [replies]
        rfl
      rw [same]
      refine .inl (.resumes point (once.snoc (other fun d' drain queue' => ?_)))
      obtain rfl := Frame.drain.inj drain
      simp [empty] at queue'
    · obtain ⟨rfl, rfl⟩ := List.cons.inj shape
      rw [same]
      have left : behind = (ahead ++ [first]) ++ left := by simp [queue, taken]
      refine .inl (.served rfl left (once.snoc (other fun d' drain queue' => ?_)))
      obtain rfl := Frame.drain.inj drain
      rw [queue'] at queue
      have lengths := congrArg List.length queue
      simp only [List.length_append, List.length_cons] at lengths
      omega
    · rw [same]
      exact .inl (.served run queue (once.snoc (deep high shape)))
    · exact .inr ⟨same ▸ a.length_unwind_le message r, .inl (once.snoc (deep high shape))⟩
  | @resumes r' stage once =>
    obtain ⟨rfl, rfl⟩ := List.cons.inj shape
    have kept := once.snoc (other (by simp))
    simp only [Frame.advance, Resuming.advance, stage] at step
    obtain rfl := Option.some.inj step
    cases drives : a.drives with
    | false =>
      have tail : a.tail = a.base := by simp [tail, drives]
      rw [tail] at kept ⊢
      exact .inr ⟨Control.length_stack_le_reply _ _, .inl kept⟩
    | true =>
      have tail : a.tail = .answer (.succeeded .nothing) :: a.base := by simp [tail, drives]
      have on := Serving.answers drives kept
      left
      show a.Serving r record action behind _ ((Control.reply .nothing).stack a.tail)
      generalize (⟨w, .run a.thread, _⟩ : Moment) = moment at on ⊢
      rw [tail]
      exact on
  | answers drives once =>
    obtain ⟨rfl, rfl⟩ := List.cons.inj shape
    have kept := once.snoc (other (by simp))
    obtain rfl := Option.some.inj step
    exact .inr ⟨Control.length_stack_le_reply _ _, .inl kept⟩

end Attendance.Serving

end

end StopTheWorld
