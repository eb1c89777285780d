import Mathlib.Logic.Relation
import StopTheWorld.Proofs.Convened

namespace StopTheWorld

/-! How far a participant has come. Apart from its turns at the phaser, what a participant goes through
is the same in every order of the participants. -/

/-- What was observed of a thread, but for what shows the clock or its turns at the phaser. -/
def ownLog (thread : ThreadId) (entries : List (ThreadId × Note)) : List Note :=
  (entries.filter fun entry => entry.1 = thread && entry.2.isOwn).map (·.2)

/-- A poll that is about to look at the epoch finds it invalidated. -/
def World.FindsPause (w : World) (thread : ThreadId) : Prop :=
  ∀ {p rest}, w.stack thread = .polling p :: rest → p.point = .check →
    (w.manager p.manager).epoch.valid = false

/-- Nobody is told what to do. -/
def IsUnprompted (moments : List Moment) : Prop :=
  ∀ moment ∈ moments, ∀ thread op, moment.move ≠ .submit thread op

/-- What there is of a participant at one moment, and what has been observed of it until then. -/
@[ext]
structure Stage where
  stack : List Frame
  outlook : Outlook
  log : List Note

def World.stage (a : Assembly) (w : World) (thread : ThreadId) (log : List Note) : Stage where
  stack := (w.stack thread).map Frame.plain
  outlook := w.outlook a thread
  log := log

/-- A step of a participant that shows. One that only has it wait at the phaser does not. -/
def Stage.Leads (a : Assembly) (thread : ThreadId) (before after : Stage) : Prop :=
  after ≠ before ∧ ∃ (w v : World) (notes : List Note), w.Assembled a ∧ w.FindsPause thread ∧
    w.step thread = some (v, notes) ∧ before = w.stage a thread before.log ∧
    after = v.stage a thread (before.log ++ notes.filter (·.isOwn))

section

variable {a : Assembly} {self thread : ThreadId} {w v : World} {frame : Frame} {rest : List Frame}
  {effect : Effect} {notes : List Note}

@[simp] theorem ownLog_append (thread : ThreadId) (first second : List (ThreadId × Note)) :
    ownLog thread (first ++ second) = ownLog thread first ++ ownLog thread second := by
  simp [ownLog]

theorem ownLog_self (thread : ThreadId) (notes : List Note) :
    ownLog thread (notes.map ((thread, ·))) = notes.filter (·.isOwn) := by
  simp [ownLog, List.filter_map, Function.comp_def]

theorem ownLog_other (other : thread ≠ self) (notes : List Note) :
    ownLog thread (notes.map ((self, ·))) = [] := by
  simp [ownLog, Ne.symm other]

theorem count_eq_ownLog [DecidableEq Note] {thread : ThreadId} {note : Note}
    (visible : note.isOwn = true) (entries : List (ThreadId × Note)) :
    entries.count (thread, note) = (ownLog thread entries).count note := by
  induction entries with
  | nil => rfl
  | cons first later ih =>
    obtain ⟨self, other⟩ := first
    rw [← List.singleton_append, ownLog_append, List.count_append, List.count_append, ih]
    congr 1
    by_cases same : other = note
    · subst same
      by_cases own : self = thread <;> simp [ownLog, own, visible]
    · by_cases own : self = thread <;> cases shown : other.isOwn <;>
        simp [ownLog, own, shown, same]

/-- What was observed of each thread for itself tells how often such a note was observed. -/
theorem countP_eq_of_ownLog {first second : List (ThreadId × Note)} {check : Note → Bool}
    (own : ∀ note, check note = true → note.isOwn = true)
    (same : ∀ thread, ownLog thread first = ownLog thread second) :
    first.countP (check ·.2) = second.countP (check ·.2) := by
  classical
  have visible (entries : List (ThreadId × Note)) :
      (entries.filter (·.2.isOwn)).countP (check ·.2) = entries.countP (check ·.2) := by
    rw [List.countP_filter]
    refine List.countP_congr fun entry _ => ?_
    simpa using own entry.2
  have perm : (first.filter (·.2.isOwn)).Perm (second.filter (·.2.isOwn)) := by
    refine List.perm_iff_count.mpr fun ⟨thread, note⟩ => ?_
    by_cases shown : note.isOwn = true
    · have seen (entries : List (ThreadId × Note)) :
          (entries.filter (·.2.isOwn)).count (thread, note) = (ownLog thread entries).count note :=
        (List.count_filter (a := (thread, note)) shown).trans (count_eq_ownLog shown entries)
      rw [seen, seen, same]
    · rw [List.count_eq_zero.mpr, List.count_eq_zero.mpr] <;> simp [shown]
  exact (visible first).symm.trans ((perm.countP_eq _).trans (visible second))

section Plain

/-! What a step makes of a stack does not depend on the clock and the phaser. -/

theorem Frame.plain_resume (frame : Frame) (value : Reply) :
    (frame.resume value).plain = frame.plain.resume value := by
  cases frame with
  | foreign f =>
    change (Frame.resume (.foreign f) value).plain = (Frame.foreign f).resume value
    unfold Frame.resume
    dsimp only
    split <;> rfl
  | _ => cases value <;> rfl

theorem Frame.plain_catch (frame : Frame) (message : String) :
    frame.plain.catch? message = (frame.catch? message).map Frame.plain := by
  cases frame with
  | visit v | foreign v =>
    simp only [Frame.catch?, Frame.plain]
    split <;> rfl
  | phases p | pausing p =>
    simp only [Frame.catch?, Frame.plain]
    split <;> rfl
  | _ => rfl

theorem Frame.plain_unwind (message : String) (stack : List Frame) :
    (Frame.unwind message stack).map Frame.plain =
      Frame.unwind message (stack.map Frame.plain) := by
  induction stack with
  | nil => rfl
  | cons frame rest ih =>
    simp only [Frame.unwind, List.map_cons, Frame.plain_catch]
    cases frame.catch? message with
    | none => exact ih
    | some handler => rfl

theorem Control.plain_stack (control : Control) (rest : List Frame) :
    (control.stack rest).map Frame.plain = control.plain.stack (rest.map Frame.plain) := by
  cases control with
  | goto | call => rfl
  | reply value =>
    cases rest with
    | nil => rfl
    | cons parent below => simp [Control.stack, Control.plain, Frame.plain_resume]
  | unwind message => exact Frame.plain_unwind message rest

theorem Control.plain_completion (control : Control) (rest : List Frame) :
    control.plain.completion (rest.map Frame.plain) = control.completion rest := by
  cases control with
  | goto | call => rfl
  | reply value => simp [Control.completion, Control.plain]
  | unwind message => simp [Control.completion, Control.plain, ← Frame.plain_unwind]

end Plain

/-- A participant that arrives at the phaser waits there, or goes on as soon as it can. Neither is
seen or observed. -/
theorem World.Assembled.arrives {x : Arrival} (assembled : w.Assembled a)
    (stack : w.stack self = .arrival x :: rest) (step : w.step self = some (v, notes))
    (log : List Note) :
    v.stage a self (log ++ notes.filter (·.isOwn)) = w.stage a self log ∨
      v.stage a self (log ++ notes.filter (·.isOwn)) =
        { w.stage a self log with stack := (w.stage a self log).stack.tail } := by
  obtain ⟨frame, below, effect, stack', advance, rfl, rfl⟩ := World.step_eq_some step
  obtain ⟨rfl, rfl⟩ := List.cons.inj (stack.symm.trans stack')
  have partakes := assembled.partakes self
  have sound := assembled.coherent.sound self
  rw [stack] at partakes sound
  obtain ⟨p, base, rfl, -⟩ := sound.below_arrival partakes.1
  obtain ⟨makes, told, -, control⟩ : Touch.nothing.Makes a self w effect.world ∧ _ :=
    Arrival.makes partakes.1 advance
  have outlook := (makes.setStack (effect.control.stack (.phases p :: base))).own
  rw [Touch.on_nothing] at outlook
  have frames : (effect.world.setStack self (effect.control.stack (.phases p :: base))).stack self =
      effect.control.stack (.phases p :: base) := by
    simp
  obtain ⟨phase, control⟩ | ⟨phase, control⟩ := control
  · left
    ext1 <;> simp_all [World.stage, Control.stack, Control.completion, Frame.plain]
  · right
    ext1 <;> simp_all [World.stage, Control.stack, Control.completion, Frame.resume]

/-- What a participant goes through next is settled. -/
theorem Stage.leads_rightUnique : Relator.RightUnique (Stage.Leads a self) := by
  rintro before after after' ⟨moved, w, v, notes, first, finds, step, start, rfl⟩
    ⟨moved', w', v', notes', second, finds', step', start', rfl⟩
  have outlook : w'.outlook a self = w.outlook a self :=
    congrArg Stage.outlook (start'.symm.trans start)
  have frames : (w'.stack self).map Frame.plain = (w.stack self).map Frame.plain :=
    congrArg Stage.stack (start'.symm.trans start)
  obtain ⟨frame, rest, effect, stack, advance, same, told⟩ := World.step_eq_some step
  obtain ⟨frame', rest', effect', stack', advance', same', told'⟩ := World.step_eq_some step'
  rw [stack, stack', List.map_cons, List.map_cons] at frames
  obtain ⟨plain, below⟩ := List.cons.inj frames
  by_cases arrival : ∃ x, frame = .arrival x
  · obtain ⟨x, rfl⟩ := arrival
    obtain ⟨x', rfl⟩ : ∃ x', frame' = .arrival x' := by
      cases frame' with
      | arrival x' => exact ⟨x', rfl⟩
      | _ => simp [Frame.plain] at plain
    have goes := (first.arrives stack step before.log).resolve_left (start ▸ moved)
    have goes' := (second.arrives stack' step' before.log).resolve_left (start' ▸ moved')
    rw [goes, goes', ← start, ← start']
  · have away (x : Arrival) : frame ≠ .arrival x := fun same => arrival ⟨x, same⟩
    have valid (p : Polling) (polling : frame = .polling p) (check : p.point = .check) :
        (w'.manager a.manager).epoch.valid = (w.manager a.manager).epoch.valid := by
      subst polling
      have sound := first.coherent.sound self
      rw [stack] at sound
      have manager : p.manager = a.manager := sound.1.1
      rw [Frame.eq_of_plain plain (by simp [Frame.plain]) (by simp [Frame.plain])] at stack'
      rw [← manager, finds stack check, finds' stack' check]
    obtain ⟨touch, concurs⟩ :=
      Frame.concurs ⟨first, second, outlook⟩ stack stack' plain away valid advance advance'
    have frames : v.stack self = effect.control.stack rest := by
      rw [same, World.stack_setStack, if_pos rfl]
    have frames' : v'.stack self = effect'.control.stack rest' := by
      rw [same', World.stack_setStack, if_pos rfl]
    have seen := (concurs.first.setStack (effect.control.stack rest)).own
    have seen' := (concurs.second.setStack (effect'.control.stack rest')).own
    have completes : effect'.control.completion rest' = effect.control.completion rest := by
      rw [← Control.plain_completion, concurs.control, below, Control.plain_completion]
    ext1
    case stack =>
      simp only [World.stage, frames, frames', Control.plain_stack, concurs.control, below]
    case outlook => simp only [World.stage, same, same', seen, seen', outlook]
    case log => simp only [World.stage, told, told', List.filter_append, concurs.notes, completes]

/-- What one participant goes through is all that happens to it in a course, whatever the others do
meanwhile. -/
theorem Course.leads {moments : List Moment}
    (course : Course World.FindsPause w moments v)
    (unprompted : IsUnprompted moments) (assembled : w.Assembled a) :
    v.Assembled a ∧
      (v.manager a.manager).statistics.slowPolls = (w.manager a.manager).statistics.slowPolls +
        (observations moments).countP (·.2.isSlowPoll) ∧
      ∀ thread, Relation.ReflTransGen (Stage.Leads a thread) (w.stage a thread [])
        (v.stage a thread (ownLog thread (observations moments))) := by
  induction course with
  | nil => exact ⟨assembled, rfl, fun _ => .refl⟩
  | @snoc moments v u move notes before finds moves ih =>
    obtain ⟨assembled, polls, leads⟩ := ih fun moment mem => unprompted moment (by simp [mem])
    have alone := unprompted ⟨v, move, notes⟩ (by simp)
    by_cases runs : ∃ self, move = .run self
    · obtain ⟨self, rfl⟩ := runs
      obtain ⟨after, touch, makes, polled⟩ := assembled.step moves
      refine ⟨after, ?_, fun thread => ?_⟩
      · rw [makes.polls, polls, ← polled]
        simp [List.countP_map, Function.comp_def, Nat.add_assoc]
      · by_cases own : thread = self
        · subst own
          have log : ownLog thread (observations (moments ++ [⟨v, .run thread, notes⟩])) =
              ownLog thread (observations moments) ++ notes.filter (·.isOwn) := by
            simp [ownLog_self]
          rw [log]
          by_cases still : u.stage a thread
              (ownLog thread (observations moments) ++ notes.filter (·.isOwn)) =
                v.stage a thread (ownLog thread (observations moments))
          · rw [still]
            exact leads thread
          · exact (leads thread).tail
              ⟨still, v, u, notes, assembled, finds thread rfl, moves, rfl, rfl⟩
        · have stack : u.stack thread = v.stack thread := by
            obtain ⟨frame, rest, effect, -, advance, rfl, -⟩ := World.step_eq_some moves
            rw [World.stack_setStack, if_neg own, Frame.advance_stack advance]
          have same : u.stage a thread (ownLog thread (observations moments)) =
              v.stage a thread (ownLog thread (observations moments)) := by
            ext1 <;> simp [World.stage, stack, makes.others thread own]
          have log : ownLog thread (observations (moments ++ [⟨v, .run self, notes⟩])) =
              ownLog thread (observations moments) := by
            simp [ownLog_other own]
          rw [log, same]
          exact leads thread
    · have idle (self : ThreadId) : move ≠ .run self := fun same => runs ⟨self, same⟩
      obtain ⟨after, makes, standing⟩ := assembled.idle idle alone moves
      have silent : observations (moments ++ [⟨v, move, notes⟩]) = observations moments := by
        cases move with
        | run self => exact absurd rfl (idle self)
        | _ => simp [Moment.observed]
      rw [silent]
      refine ⟨after, by rw [makes.polls, polls]; rfl, fun thread => ?_⟩
      have outlook : u.outlook a thread = v.outlook a thread := by
        by_cases driver : thread = a.driver
        · rw [driver, makes.own, Touch.on_nothing]
        · exact makes.others thread driver
      have same : u.stage a thread (ownLog thread (observations moments)) =
          v.stage a thread (ownLog thread (observations moments)) := by
        ext1 <;> simp [World.stage, standing, outlook]
      rw [same]
      exact leads thread

/-- A participant whose call has returned goes through nothing more. -/
theorem Stage.not_leads_of_idle {before after : Stage} (idle : before.stack = []) :
    ¬ before.Leads a self after := by
  rintro ⟨-, w, v, notes, -, -, step, start, -⟩
  obtain ⟨frame, rest, -, stack, -⟩ := World.step_eq_some step
  rw [start] at idle
  simp [World.stage, stack] at idle

/-- All that a participant goes through until its call returns is the same in any two courses. -/
theorem Stage.eq_of_idle {start first second : Stage}
    (leads : Relation.ReflTransGen (Stage.Leads a self) start first)
    (leads' : Relation.ReflTransGen (Stage.Leads a self) start second)
    (idle : first.stack = []) (idle' : second.stack = []) : first = second := by
  obtain further | further :=
    Relation.ReflTransGen.total_of_right_unique Stage.leads_rightUnique leads leads'
  · exact ((Relation.reflTransGen_iff_eq fun _ => Stage.not_leads_of_idle idle).mp further).symm
  · exact (Relation.reflTransGen_iff_eq fun _ => Stage.not_leads_of_idle idle').mp further

end

end StopTheWorld
