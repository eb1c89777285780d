import StopTheWorld.Proofs.ActionOnce
import StopTheWorld.Proofs.Custody
import StopTheWorld.Proofs.Inside
import StopTheWorld.Proofs.PauseCall
import StopTheWorld.Proofs.Setup

namespace StopTheWorld

/-! The global lock is conserved: whoever polls or drives a pause owns it afterwards if and only if it
did so before, and while the action of a pause runs it is with none of the participants. -/

/-- A poll, or a call that drives a pause. -/
def Op.isSafepoint : Op → Bool
  | poll _ | pollFree _ | pause _ _ | pauseWith _ _ _ | pauseForeign _ _ => true
  | _ => false

/-- The thread performs the operation from the first moment to the last one, which leads to the world. -/
structure Op.Lasts (op : Op) (thread : ThreadId) (base : List Frame) (first : Moment)
    (mid : List Moment) (last : Moment) (next : World) : Prop where
  runs : first.move = .run thread
  stack : first.world.stack thread = .start op :: base
  within : ∀ moment ∈ mid ++ [last], base.length < (moment.world.stack thread).length
  moves : last.world.move last.move = some (next, last.notes)
  ends : (next.stack thread).length ≤ base.length

/-- What holds of all threads and the global lock in every world that they can come to. -/
structure World.Custodial (m : ManagerId) (g : GlobalId) (w : World) : Prop where
  coherent : w.Coherent m
  laid : w.IsLaid
  lock : (w.manager m).globalLock = g
  custody : ∀ thread, Custody g thread (fun _ => True) (w.stack thread) (w.holds g thread)

section

variable {m : ManagerId} {g : GlobalId} {w v : World} {self thread : ThreadId} {frame : Frame}
  {rest above base : List Frame} {final : Bool → Prop} {holds held : Bool} {notes : List Note}
  {moments : List Moment}

/-- An operation that is not one of a script is not part of any procedure. -/
theorem Laid.sequences (laid : Laid (frame :: rest))
    (user : ∀ parent : Frame, parent.hosts frame = true →
      parent.isScript = true ∨ ∃ s, parent = .sequence s)
    (bare : rest.any (·.isScript) = false) :
    inCallback rest = false ∧ rest.any (·.isDrain) = false := by
  induction rest generalizing frame with
  | nil => exact ⟨rfl, rfl⟩
  | cons parent below ih =>
    rw [List.any_cons, Bool.or_eq_false_iff] at bare
    obtain script | ⟨s, rfl⟩ := user parent laid.1
    · simp [bare.1] at script
    · refine ih laid.tail (fun parent hosts => ?_) bare.2
      cases parent with
      | script => exact .inl rfl
      | sequence s => exact .inr ⟨s, rfl⟩
      | _ => simp [Frame.hosts] at hosts

/-- User code that is truthful about the global lock is orderly. -/
theorem World.Custodial.orderly (custodial : w.Custodial m g) (truthful : Truthful m w thread) :
    Orderly m w thread := by
  have inside {op : Op} {rest : List Frame} (stack : w.stack thread = .start op :: rest)
      (calls : op.calls? ≠ none) : inCallback rest = false ∧ rest.any (·.isDrain) = false := by
    have laid := custodial.laid thread
    rw [stack] at laid
    refine laid.sequences (fun parent hosts => ?_) (Bool.eq_false_of_not_eq_true fun script =>
      calls (truthful.apart stack script).1)
    cases parent with
    | script => exact .inl rfl
    | sequence s => exact .inr ⟨s, rfl⟩
    | _ => simp [Frame.hosts] at hosts
  refine custodial.coherent.orderly truthful.single ?_ ?_ ?_
  · intro op rest stack callback
    by_contra calls
    rw [(inside stack calls).1] at callback
    simp at callback
  · intro frame rest effect stack callback
    exact truthful.steady stack (by simp [isAside, callback])
  · intro rest stack drains
    rw [(inside stack (by simp [Op.calls?])).2] at drains
    simp at drains

/-- Who handles the lock does so on its own behalf. -/
theorem Custody.behalf (custody : Custody g self final (frame :: rest) holds)
    (lock : (w.manager m).globalLock = g) (stack : w.stack self = frame :: rest)
    (faithful : Faithful m w self) :
    (∀ owner, frame.handles? self w = some (g, owner) → owner = self) ∧
      frame ≠ .release (.global g) .clear := by
  refine ⟨fun owner handles => ?_, ?_⟩
  · cases frame with
    | start op => exact faithful.behalf stack (lock ▸ handles)
    | acquisition a =>
      simp only [Frame.handles?] at handles
      split at handles
      · rename_i own
        obtain ⟨rfl, rfl⟩ := Prod.mk.inj (Option.some.inj handles)
        exact ((of_taking own).mp custody).1
      · simp at handles
    | release lock point =>
      cases lock <;> simp_all [Frame.handles?, Frame.gives?]
    | polling | pausing | blocking =>
      simp only [Frame.handles?, Frame.gives?] at handles
      split at handles
      · exact (Prod.mk.inj (Option.some.inj handles)).2.symm
      · simp at handles
    | _ => simp [Frame.handles?, Frame.gives?] at handles
  · rintro rfl
    exact custody.1 rfl

theorem Custody.rouse {frame' : Frame} (custody : Custody g self final (frame :: rest) holds)
    (rouses : frame.Rouses frame') : Custody g self final (frame' :: rest) holds := by
  cases rouses <;> exact custody

/-- What unwinds is caught by a frame of the call, or leaves the call altogether. -/
theorem Frame.unwind_cut (message : String) (above : List Frame) :
    (∃ frame above', Frame.unwind message above = frame :: above' ∧
        ∀ base, Frame.unwind message (above ++ base) = frame :: (above' ++ base)) ∨
      ∀ base, Frame.unwind message (above ++ base) = Frame.unwind message base := by
  induction above with
  | nil => exact .inr fun _ => rfl
  | cons parent below ih =>
    simp only [List.cons_append, Frame.unwind]
    split
    · exact .inl ⟨_, below, rfl, fun _ => rfl⟩
    · exact ih

/-- What a step of a call leaves of it stands where the call began; or the call is replied to or left by
an unwinding. -/
theorem Control.stack_cut (control : Control) (above : List Frame) :
    (∃ frame above', control.stack above = frame :: above' ∧
        ∀ base, control.stack (above ++ base) = frame :: (above' ++ base)) ∨
      (above = [] ∧ ∃ value, control = .reply value) ∨
      ∃ message, control = .unwind message ∧
        ∀ base, control.stack (above ++ base) = Frame.unwind message base := by
  cases control with
  | goto top => exact .inl ⟨top, above, rfl, fun _ => rfl⟩
  | call top back => exact .inl ⟨top, back :: above, rfl, fun _ => rfl⟩
  | reply value =>
    cases above with
    | nil => exact .inr (.inl ⟨rfl, value, rfl⟩)
    | cons parent below => exact .inl ⟨_, below, rfl, fun _ => rfl⟩
  | unwind message =>
    exact (Frame.unwind_cut message above).imp_right fun leaves => .inr ⟨message, rfl, leaves⟩

/-- What a step of a call leaves of it, if anything, stands where the call began. -/
theorem Control.stack_over (control : Control) (above base : List Frame) :
    control.stack above = [] ∧ (control.stack (above ++ base)).length ≤ base.length ∨
      ∃ frame above', control.stack above = frame :: above' ∧
        control.stack (above ++ base) = frame :: (above' ++ base) := by
  obtain ⟨frame, above', on, same⟩ | ⟨rfl, value, rfl⟩ | ⟨message, -, leaves⟩ :=
    control.stack_cut above
  · exact .inr ⟨frame, above', on, same base⟩
  · exact .inl ⟨rfl, Control.length_stack_le_reply value base⟩
  · exact .inl ⟨above.append_nil ▸ leaves [], leaves base ▸ Frame.length_unwind_le message base⟩

theorem World.holds_setStack (self : ThreadId) (stack : List Frame) :
    (w.setStack self stack).holds g thread = w.holds g thread := by
  rw [holds, lock_setStack]
  rfl

namespace World.Custodial

/-- Nobody but the thread itself makes it own the lock, or lose it. -/
theorem holds_other {move : Move} (custodial : w.Custodial m g)
    (faithful : ∀ thread, move = .run thread → Faithful m w thread)
    (moves : w.move move = some (v, notes)) (other : move ≠ .run thread) :
    v.holds g thread = w.holds g thread := by
  by_cases runs : ∃ self, move = .run self
  · obtain ⟨self, rfl⟩ := runs
    have ne : thread ≠ self := fun same => other (same ▸ rfl)
    obtain ⟨frame, rest, effect, stack, step, rfl, -⟩ := World.step_eq_some moves
    have custody := custodial.custody self
    rw [stack] at custody
    obtain ⟨behalf, keeps⟩ := custody.behalf custodial.lock stack (faithful self rfl)
    rw [World.holds_setStack]
    exact Frame.holds_other step behalf keeps ne
  · obtain same | ⟨roused, same⟩ :=
        World.lock_other (.global g) moves fun self runs' => runs ⟨self, runs'⟩ <;>
      rw [World.holds, same] <;> rfl

theorem move {move : Move} (custodial : w.Custodial m g)
    (faithful : ∀ thread, move = .run thread → Faithful m w thread)
    (moves : w.move move = some (v, notes)) : v.Custodial m g := by
  refine ⟨(custodial.coherent.move (fun thread runs =>
      custodial.orderly (faithful thread runs).toTruthful) moves).1, custodial.laid.move moves,
    (World.globalLock_move moves).trans custodial.lock, fun thread => ?_⟩
  have custody := custodial.custody thread
  by_cases own : move = .run thread
  · subst own
    obtain ⟨frame, rest, effect, stack, step, rfl, -⟩ := World.step_eq_some moves
    rw [stack] at custody
    rw [World.stack_setStack, if_pos rfl, World.holds_setStack]
    exact custody.step custodial.lock stack (List.append_nil rest).symm
      (custodial.coherent.sound thread) (custodial.laid thread) (faithful thread rfl) step
  · rw [custodial.holds_other faithful moves own]
    obtain ⟨-, same | ⟨op, idle, told⟩ | ⟨frame, frame', rest, before, after, rouses⟩⟩ :=
      World.move_other moves own
    · exact same ▸ custody
    · rw [told]
      exact ⟨trivial, fun _ _ => trivial⟩
    · rw [before] at custody
      rw [after]
      exact custody.rouse rouses

/-- A call goes on as its procedures have it, and in the end leaves its caller with the lock or without
it as it is to. -/
theorem call_move {move : Move} (custodial : w.Custodial m g)
    (faithful : ∀ thread, move = .run thread → Faithful m w thread)
    (moves : w.move move = some (v, notes)) (stack : w.stack thread = frame :: (above ++ base))
    (custody : Custody g thread final (frame :: above) (w.holds g thread)) :
    (∃ frame' above', v.stack thread = frame' :: (above' ++ base) ∧
      Custody g thread final (frame' :: above') (v.holds g thread)) ∨
    (v.stack thread).length ≤ base.length ∧ final (v.holds g thread) := by
  by_cases own : move = .run thread
  · subst own
    obtain ⟨top, rest, effect, stack', step, rfl, -⟩ := World.step_eq_some moves
    obtain ⟨rfl, rfl⟩ := List.cons.inj (stack'.symm.trans stack)
    have next := custody.step custodial.lock stack' rfl (custodial.coherent.sound thread)
      (custodial.laid thread) (faithful thread rfl) step
    rw [World.stack_setStack, if_pos rfl, World.holds_setStack]
    obtain ⟨none, ended⟩ | ⟨frame', above', on, same⟩ := effect.control.stack_over above base
    · rw [none] at next
      exact .inr ⟨ended, next⟩
    · rw [on] at next
      exact .inl ⟨frame', above', same, next⟩
  · rw [custodial.holds_other faithful moves own]
    obtain ⟨-, same | ⟨op, idle, -⟩ | ⟨top, top', rest, before, after, rouses⟩⟩ :=
      World.move_other moves own
    · exact .inl ⟨frame, above, same.trans stack, custody⟩
    · simp [stack] at idle
    · obtain ⟨rfl, rfl⟩ := List.cons.inj (before.symm.trans stack)
      exact .inl ⟨top', above, after, custody.rouse rouses⟩

/-- A call begins as its caller claims: what it is to be in the end is what it is now. -/
theorem begins {op : Op} (custodial : w.Custodial m g) (truthful : Truthful m w thread)
    (moves : w.move (.run thread) = some (v, notes)) (stack : w.stack thread = .start op :: base)
    (safepoint : op.isSafepoint = true) :
    ∃ frame, v.stack thread = frame :: ([] ++ base) ∧
      Custody g thread (· = w.holds g thread) [frame] (v.holds g thread) := by
  have claims (holds : Bool) (claimed : op.claims? = some holds) : w.holds g thread = holds :=
    custodial.lock ▸ truthful.claims stack claimed
  obtain ⟨top, rest, effect, stack', step, rfl, -⟩ := World.step_eq_some moves
  obtain ⟨rfl, rfl⟩ := List.cons.inj (stack'.symm.trans stack)
  rw [World.stack_setStack, if_pos rfl, World.holds_setStack]
  cases op with
  | poll | pollFree | pause | pauseForeign =>
    obtain rfl := Option.some.inj step
    have now := claims _ rfl
    exact ⟨_, rfl, now, rfl, now.symm⟩
  | pauseWith n holds action =>
    obtain rfl := Option.some.inj step
    have now := claims _ rfl
    exact ⟨_, rfl, now.trans (Bool.and_true holds).symm, rfl, now.symm⟩
  | _ => simp [Op.isSafepoint] at safepoint

end World.Custodial

theorem World.IsFresh.custodial (fresh : w.IsFresh m) : w.Custodial m (w.manager m).globalLock :=
  ⟨fresh.coherent, fun thread => by rw [fresh.idle]; trivial, rfl,
    fun thread => by rw [fresh.idle]; trivial⟩

theorem Course.custodial (course : Course (Faithful m) w moments v) (custodial : w.Custodial m g) :
    v.Custodial m g :=
  course.keeps (fun custodial faithful moves => custodial.move faithful moves) custodial

/-- What holds when a call is under way, and is kept by every move that does not end the call, holds as
long as the call lasts. -/
theorem Course.lasting {custom : World → ThreadId → Prop} {P : List Moment → World → Prop}
    (course : Course custom w moments v) (start : P [] w)
    (step : ∀ {moments : List Moment} {x y : World} {move : Move} {notes : List Note},
      Course custom w moments x → P moments x →
      (∀ thread, move = .run thread → custom x thread) → x.move move = some (y, notes) →
      base.length < (y.stack thread).length → P (moments ++ [⟨x, move, notes⟩]) y)
    (within : ∀ moment ∈ moments, base.length < (moment.world.stack thread).length)
    (on : base.length < (v.stack thread).length) : P moments v := by
  induction course with
  | nil => exact start
  | @snoc moments v u move notes before allowed moves ih =>
    exact step before (ih (fun moment mem => within moment (List.mem_append_left _ mem))
      (within ⟨v, move, notes⟩ (List.mem_append_right _ List.mem_cons_self))) allowed moves on

/-- As long as it lasts, a call is as its procedures have it. -/
theorem Course.custody (course : Course (Faithful m) w moments v) (custodial : w.Custodial m g)
    (stack : w.stack thread = frame :: (above ++ base))
    (custody : Custody g thread final (frame :: above) (w.holds g thread))
    (within : ∀ moment ∈ moments, base.length < (moment.world.stack thread).length)
    (on : base.length < (v.stack thread).length) :
    ∃ frame' above', v.stack thread = frame' :: (above' ++ base) ∧
      Custody g thread final (frame' :: above') (v.holds g thread) := by
  refine course.lasting
    (P := fun _ v => ∃ frame' above', v.stack thread = frame' :: (above' ++ base) ∧
      Custody g thread final (frame' :: above') (v.holds g thread))
    ⟨frame, above, stack, custody⟩ (fun before kept faithful moves on => ?_) within on
  obtain ⟨frame', above', stack', custody'⟩ := kept
  exact ((before.custodial custodial).call_move faithful moves stack' custody').resolve_right
    fun ended => absurd on (Nat.not_lt.mpr ended.1)

/-- Within a script, nothing has to do with the lock. -/
theorem Custody.within (custody : Custody g self final (frame :: rest) holds)
    (script : rest.any (·.isScript) = true) : Custody g self final rest holds := by
  cases frame with
  | acquisition a =>
    by_cases own : a.lock = .global g
    · have bare := ((of_taking own).mp custody).2.1
      rw [script] at bare
      simp at bare
    · exact ((of_acquisition own).mp custody).2
  | polling | pausing | resuming | phases | leaving | foreign | acquiring | blocking =>
    have bare := custody.2.1
    rw [script] at bare
    simp at bare
  | release => exact custody.2
  | start | sequence => exact custody.1
  | _ => exact custody

/-- Whatever a thread calls in the phases of a pause, it calls within a script. -/
theorem Sound.scripted {p : Phases} (sound : Sound m self (frame :: (above ++ .phases p :: base)))
    (deep : above ≠ []) : above.any (·.isScript) = true := by
  induction above generalizing frame with
  | nil => exact absurd rfl deep
  | cons parent above ih =>
    cases above with
    | nil =>
      have waits : parent.Awaits m frame (.phases p :: base) := sound.2.1
      have stands : (Frame.phases p).Awaits m parent base := sound.tail.2.1
      cases parent with
      | script => rfl
      | arrival => exact waits.elim
      | _ => exact stands.elim
    | cons next above => rw [List.any_cons, ih sound.tail (by simp), Bool.or_true]

/-- Whoever is in the phases of a pause does not own the lock. -/
theorem Sound.away {p : Phases} (sound : Sound m self (above ++ .phases p :: base))
    (custody : Custody g self final (above ++ .phases p :: base) holds) : holds = false := by
  induction above with
  | nil => exact custody.1
  | cons frame above ih =>
    refine ih sound.tail ?_
    by_cases deep : above = []
    · subst deep
      have stands : (Frame.phases p).Awaits m frame base := sound.2.1
      cases frame with
      | script | arrival => exact custody
      | _ => exact stands.elim
    · exact custody.within (by simp [sound.scripted deep])

/-- While an action runs, no thread that is registered owns the lock. -/
theorem World.Custodial.acting {other : ThreadId} (custodial : w.Custodial m g)
    (acts : Acts m (w.stack other)) (registered : thread ∈ (w.manager m).registry.identities) :
    w.holds g thread = false := by
  have phase := custodial.coherent.acts acts
  have admits := custodial.coherent.lawful.admits thread
  have sound := custodial.coherent.sound thread
  have custody := custodial.custody thread
  have meets : (w.posture m thread).meets = true := by
    refine Bool.eq_true_of_not_eq_false fun absent => ?_
    have early : (w.core m).phaser.phase = 3 * (w.core m).pauses ∨
        (w.core m).phaser.phase = 3 * (w.core m).pauses + 3 :=
      admits.absent (.inl registered) absent
    omega
  obtain ⟨leads, point, arrival, meeting⟩ : ∃ leads point arrival,
      StopTheWorld.posture m (w.stack thread) = .meeting leads point arrival := by
    unfold World.posture at meets
    cases place : StopTheWorld.posture m (w.stack thread) <;> simp_all [Posture.meets]
  obtain ⟨above, p, below, stack, -⟩ := sound.meeting meeting
  rw [stack] at sound custody
  exact sound.away custody

/-- The operation that an otherwise idle thread is about to begin. -/
def soleOp? : List Frame → Option Op
  | [.start op] => some op
  | _ => none

theorem soleOp?_eq_some {op : Op} {stack : List Frame} (sole : soleOp? stack = some op) :
    stack = [.start op] := by
  unfold soleOp? at sole
  split at sole
  · rw [Option.some.inj sole]
  · simp at sole

/-- Decides whether a thread polls or drives a pause, and does so from the one moment to the other. -/
def lasts (thread : ThreadId) (first : Moment) (mid : List Moment) (last : Moment) : Bool :=
  first.move.isOf thread && (soleOp? (first.world.stack thread)).any (·.isSafepoint) &&
    (mid ++ [last]).all (fun moment => !(moment.world.stack thread).isEmpty) &&
    (last.world.move last.move).any fun moved => (moved.1.stack thread).isEmpty

/-- Three threads and a manager that nobody has used. -/
def World.triple : World := .initial [none, none, none] [{}]

end

end StopTheWorld
