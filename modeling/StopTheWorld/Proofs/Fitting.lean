import StopTheWorld.Proofs.Layout

namespace StopTheWorld

/-! On whose behalf the innermost procedures act: a thread takes pause locks, registers and deregisters
for itself, and goes through the members of a manager only for the pause that it drives. All of this is
read off the procedures alone: it holds in any world, whatever user code does. -/

/-- The visit is that of a driver to the members of its manager, save itself, to interrupt them. -/
structure Visit.Calls (v : Visit) (driver : ThreadId) (m : ManagerId) : Prop where
  registry : v.registry = .manager m
  except : v.except = some driver
  interrupt : v.interrupt = true
  others : driver ∉ v.todo
  other : v.point ≠ .release driver

/-- What the frame has in common with the thread, and with the frame that waits for it. -/
def Frame.Befits (self : ThreadId) (rest : List Frame) : Frame → Prop
  | acquisition a => ∀ n, a.lock = .pause n → a.owner = self
  | enrolment x =>
    ∀ n, x.registry = .manager n → ∃ e below, rest = .entering e :: below ∧ e.manager = n ∧
      x.entry = { identity := self, record := e.record, interruptible := e.interruptible }
  | withdrawal x =>
    ∀ n, x.registry = .manager n → x.identity = self ∧
      ∃ l below, rest = .leaving l :: below ∧ l.manager = n
  | visit v =>
    ((∃ registry, v.registry = .loose registry) ∧ ∀ p below, rest ≠ .pausing p :: below) ∨
      ∃ p below, rest = .pausing p :: below ∧ v.Calls self p.manager
  | interruption i => ∀ v below, rest = .visit v :: below → v.point = .release i.target
  | _ => True

/-- Every frame fits in where it stands. -/
def Fitted (self : ThreadId) : List Frame → Prop
  | [] => True
  | frame :: rest => frame.Befits self rest ∧ Fitted self rest

def Control.Befits (self : ThreadId) (rest : List Frame) : Control → Prop
  | goto frame => frame.Befits self rest
  | call child back => child.Befits self (back :: rest) ∧ back.Befits self rest
  | reply _ | unwind _ => True

def World.IsFitted (w : World) : Prop := ∀ thread, Fitted thread (w.stack thread)

section

variable {w v : World} {self : ThreadId} {frame frame' parent : Frame} {rest below : List Frame}
  {effect : Effect} {notes : List Note}

theorem Op.befits_step {op : Op} (laid : Laid (.start op :: rest))
    (step : op.advance self w = some effect) : effect.control.Befits self rest := by
  have alone (v : Visit) (below : List Frame) : rest ≠ .visit v :: below := by
    rintro rfl
    simp [Laid, Frame.isHosted, Frame.hosts] at laid
  have free (p : Pausing) (below : List Frame) : rest ≠ .pausing p :: below := by
    rintro rfl
    simp [Laid, Frame.isHosted, Frame.hosts] at laid
  cases op with
  | access a =>
    obtain ⟨-, -, ⟨value, control⟩ | ⟨message, control⟩⟩ := Access.agrees (m := 0) step <;>
      rw [control] <;> trivial
  | release n =>
    obtain ⟨_, -, replies⟩ := Option.bind_eq_some_iff.mp step
    obtain rfl := Option.some.inj replies
    trivial
  | deferLookup | unlock =>
    simp only [advance] at step
    split at step <;> obtain rfl := Option.some.inj step <;> simp [Control.Befits, Frame.Befits]
  | _ =>
    obtain rfl := Option.some.inj step
    simp [Control.Befits, Frame.Befits, Acquisition.begin, alone, free]

theorem Visit.befits_step {x : Visit} (befits : (Frame.visit x).Befits self rest)
    (step : x.advance w = some effect) : effect.control.Befits self rest := by
  have goes {y : Visit} (registry : y.registry = x.registry) (except : y.except = x.except)
      (interrupt : y.interrupt = x.interrupt)
      (others : x.except = some self → self ∉ x.todo → self ∉ y.todo ∧ y.point ≠ .release self) :
      (Frame.visit y).Befits self rest := by
    obtain ⟨⟨id, loose⟩, free⟩ | ⟨p, below, stands, calls⟩ := befits
    · exact .inl ⟨⟨id, registry.trans loose⟩, free⟩
    · obtain ⟨others, other⟩ := others calls.except calls.others
      exact .inr ⟨p, below, stands, registry.trans calls.registry, except.trans calls.except,
        interrupt.trans calls.interrupt, others, other⟩
  unfold advance at step
  dsimp only at step
  split at step
  · obtain rfl := Option.some.inj step
    refine goes rfl rfl rfl fun except _ => ⟨?_, by simp⟩
    simp [except]
  · obtain rfl := Option.some.inj step
    trivial
  · rename_i identity later point todo
    have tail : self ∉ x.todo → self ∉ later := fun others mem =>
      others (todo ▸ List.mem_cons_of_mem _ mem)
    split at step
    · split at step <;> obtain rfl := Option.some.inj step
      · refine ⟨?_, goes rfl rfl rfl fun _ others => ⟨tail others, ?_⟩⟩
        · rintro y below same
          obtain rfl := Frame.visit.inj (List.cons.inj same).1
          rfl
        · rintro same
          obtain rfl := Visit.Point.release.inj same
          exact others (todo ▸ List.mem_cons_self)
      · exact goes rfl rfl rfl fun _ others => ⟨tail others, by simp [point]⟩
    · obtain rfl := Option.some.inj step
      exact goes rfl rfl rfl fun _ others => ⟨tail others, by simp [point]⟩
  · obtain rfl := Option.some.inj step
    exact goes rfl rfl rfl fun _ others => ⟨others, by simp⟩
  · obtain rfl := Option.some.inj step
    trivial

theorem Frame.befits_step (laid : Laid (frame :: rest)) (befits : frame.Befits self rest)
    (step : frame.advance self w = some effect) : effect.control.Befits self rest := by
  cases frame with
  | start op => exact Op.befits_step laid step
  | visit x => exact Visit.befits_step befits step
  | _ =>
    simp only [advance, Acquisition.advance, Acquisition.took, Acquisition.gaveUp, Release.advance,
      OwnedLock.advanceNotify, Arrival.advance, Sleeping.advance, Parking.advance,
      Interruption.advance, Enrolment.advance, Withdrawal.advance, Script.advance,
      Sequence.advance, Drain.advance, Phases.advance, Resuming.advance, Polling.advance,
      Entering.advance, Leaving.advance, Pausing.advance, Foreign.advance, Acquiring.advance,
      Blocking.advance, Trial.advance] at step
    repeat' split at step
    all_goals first
      | (obtain rfl := Option.some.inj step
         first
           | trivial
           | exact befits
           | (simp [Control.Befits, Befits, Acquisition.begin]
              done)
           | exact ⟨.inr ⟨_, _, rfl, rfl, rfl, rfl, by simp, by simp⟩, trivial⟩)
      | (obtain ⟨_, -, goes⟩ := Option.bind_eq_some_iff.mp step
         obtain rfl := Option.some.inj goes
         trivial)
      | simp at step

theorem Frame.befits_resume (befits : parent.Befits self below) (value : Reply) :
    (parent.resume value).Befits self below := by
  unfold Frame.resume
  split <;> first
    | trivial
    | exact befits
    | (split <;> trivial)

theorem Frame.befits_catch {message : String} {handler : Frame} (befits : parent.Befits self below)
    (caught : parent.catch? message = some handler) : handler.Befits self below := by
  unfold Frame.catch? at caught
  repeat' split at caught
  all_goals first
    | (obtain rfl := Option.some.inj caught
       trivial)
    | (obtain rfl := Option.some.inj caught
       exact befits.imp_right fun ⟨p, below, stands, calls⟩ =>
         ⟨p, below, stands, calls.registry, calls.except, calls.interrupt, calls.others, by simp⟩)
    | simp at caught

namespace Fitted

theorem unwind (fitted : Fitted self rest) (message : String) :
    Fitted self (Frame.unwind message rest) := by
  induction rest with
  | nil => trivial
  | cons parent below ih =>
    unfold Frame.unwind
    split
    · exact ⟨Frame.befits_catch fitted.1 ‹_›, fitted.2⟩
    · exact ih fitted.2

theorem step (fitted : Fitted self (frame :: rest)) (laid : Laid (frame :: rest))
    (step : frame.advance self w = some effect) : Fitted self (effect.control.stack rest) := by
  have befits := Frame.befits_step laid fitted.1 step
  cases control : effect.control with
  | goto frame' =>
    rw [control] at befits
    exact ⟨befits, fitted.2⟩
  | call child back =>
    rw [control] at befits
    exact ⟨befits.1, befits.2, fitted.2⟩
  | reply value =>
    cases rest with
    | nil => trivial
    | cons parent below => exact ⟨Frame.befits_resume fitted.2.1 value, fitted.2.2⟩
  | unwind message => exact fitted.2.unwind message

theorem append {above : List Frame} (fitted : Fitted self (above ++ rest)) : Fitted self rest := by
  induction above with
  | nil => exact fitted
  | cons frame above ih => exact ih fitted.2

end Fitted

theorem World.IsFitted.move {move : Move} (fitted : w.IsFitted) (laid : w.IsLaid)
    (moves : w.move move = some (v, notes)) : v.IsFitted := by
  intro thread
  by_cases own : move = .run thread
  · subst own
    obtain ⟨frame, rest, effect, stack, step, rfl, -⟩ := World.step_eq_some moves
    rw [World.stack_setStack, if_pos rfl]
    exact (stack ▸ fitted thread : Fitted thread (frame :: rest)).step (stack ▸ laid thread) step
  · obtain ⟨-, same | ⟨op, -, told⟩ | ⟨frame, frame', rest, before, after, rouses⟩⟩ :=
      World.move_other moves own
    · exact same ▸ fitted thread
    · rw [told]
      exact ⟨trivial, trivial⟩
    · have fitted : Fitted thread (frame :: rest) := before ▸ fitted thread
      rw [after]
      cases rouses <;> exact ⟨trivial, fitted.2⟩

/-- In a world that nobody has done anything in, and in all that it can come to, frames fit in. -/
theorem Course.isFitted {custom : World → ThreadId → Prop} {moments : List Moment}
    (course : Course custom w moments v) (idle : ∀ thread, w.stack thread = []) :
    v.IsLaid ∧ v.IsFitted :=
  course.keeps (P := fun u => u.IsLaid ∧ u.IsFitted)
    (fun ⟨laid, fitted⟩ _ moves => ⟨laid.move moves, fitted.move laid moves⟩)
    ⟨fun thread => by rw [idle]; trivial, fun thread => by rw [idle]; trivial⟩

end

end StopTheWorld
