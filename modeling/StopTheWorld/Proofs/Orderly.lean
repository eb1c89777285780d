import StopTheWorld.Machine.Initial
import StopTheWorld.Machine.Laws
import StopTheWorld.Proofs.Course
import StopTheWorld.Proofs.Posture

namespace StopTheWorld

/-! What user code has to keep to for the pauses of a manager to work. -/

/-- The manager that an operation calls. Views of a manager, and the giving up of its global lock,
are left out: they have no part in pauses. -/
def Op.calls? : Op → Option ManagerId
  | enter manager | enterWith manager _ _ | leave manager | poll manager | pollFree manager
  | acquire manager | pause manager _ | pauseWith manager _ _ | pauseForeign manager _
  | runBlocking manager _ _ => some manager
  | _ => none

/-- The step that a thread is about to take is one of orderly user code, as far as `m` goes. Pause
actions, deferred actions and blocking operations may do anything else. -/
structure Orderly (m : ManagerId) (w : World) (thread : ThreadId) : Prop where
  /-- There is no other manager. -/
  single : ∀ {op rest}, w.stack thread = .start op :: rest → op.calls? = none ∨ op.calls? = some m
  /-- Callbacks do not call the manager. -/
  callbacks : ∀ {op rest}, w.stack thread = .start op :: rest → inCallback rest = true →
    op.calls? = none
  /-- Callbacks do not unwind. -/
  steady : ∀ {frame rest effect}, w.stack thread = frame :: rest → inCallback rest = true →
    frame.advance thread w = some effect → ∀ message, effect.control ≠ .unwind message
  /-- A thread does not leave while it waits for a pause of its own. Only a deferred action that
  runs within the wait could do so; within the phases of a pause, leaving is ignored. -/
  stays : ∀ {rest}, w.stack thread = .start (.leave m) :: rest → rest.any (·.isPausing) = true →
    rest.any (·.isPhases) = true

/-- Decides whether a step is orderly. -/
def World.isOrderly (m : ManagerId) (w : World) (thread : ThreadId) : Bool :=
  match w.stack thread with
  | [] => true
  | frame :: rest =>
    (match frame with
      | .start op =>
        (op.calls? = none || op.calls? = some m && !inCallback rest) &&
          (match op with
            | .leave _ => !rest.any (·.isPausing) || rest.any (·.isPhases)
            | _ => true)
      | _ => true) &&
    (!inCallback rest ||
      match (frame.advance thread w).map (·.control) with
      | some (Control.unwind _) => false
      | _ => true)

theorem World.orderly_of_isOrderly (m : ManagerId) (w : World) (thread : ThreadId)
    (orderly : w.isOrderly m thread = true) : Orderly m w thread := by
  unfold World.isOrderly at orderly
  constructor
  · intro op rest stack
    rw [stack] at orderly
    simp only [Bool.and_eq_true, Bool.or_eq_true, decide_eq_true_eq] at orderly
    exact orderly.1.1.imp_right (·.1)
  · intro op rest stack inside
    rw [stack] at orderly
    simp only [Bool.and_eq_true, Bool.or_eq_true, decide_eq_true_eq, inside] at orderly
    simpa using orderly.1.1
  · intro frame rest effect stack inside step message unwinds
    rw [stack] at orderly
    simp only [Bool.and_eq_true, inside, step, Option.map_some, unwinds] at orderly
    simp at orderly
  · intro rest stack pausing
    rw [stack] at orderly
    simp only [Bool.and_eq_true, pausing] at orderly
    simpa using orderly.1.2

/-- Nobody has used the manager yet. -/
structure Manager.IsNew (manager : Manager) : Prop where
  epoch : manager.epoch = .first
  registry : manager.registry = {}
  pauseLock : manager.pauseLock = {}
  action : manager.action = none
  statistics : manager.statistics = {}

/-- Nobody has done anything yet. -/
structure World.IsFresh (m : ManagerId) (w : World) : Prop where
  idle : ∀ thread, w.stack thread = []
  unmarked : ∀ thread, (w.thread thread).inPause = false
  new : (w.manager m).IsNew

theorem World.initial_isFresh {m : ManagerId} {names : List (Option String)}
    {managers : List Manager} (new : (managers.getD m default).IsNew) :
    (World.initial names managers).IsFresh m := by
  have thread (t : ThreadId) : ((World.initial names managers).thread t).stack = [] ∧
      ((World.initial names managers).thread t).inPause = false := by
    unfold World.thread World.initial
    rw [Table.get_ofList, List.getD_eq_getElem?_getD, List.getElem?_map]
    cases names.zipIdx[t]? <;> exact ⟨rfl, rfl⟩
  refine ⟨fun t => (thread t).1, fun t => (thread t).2, ?_⟩
  unfold World.manager World.initial
  rw [Table.get_ofList]
  exact new

/-- Two threads and a manager that nobody has used. -/
def World.pair : World := .initial [none, none] [{}]

theorem World.pair_isFresh : World.pair.IsFresh 0 :=
  initial_isFresh ⟨rfl, rfl, rfl, rfl, rfl⟩

/-- Both threads register, and the first drives a pause that the second joins by a poll. -/
def pauseOfTwo : List Move :=
  Move.repeated [
    (1, .submit 0 (.enter 0)), (14, .run 0), (1, .submit 1 (.enter 0)), (14, .run 1),
    (1, .submit 0 (.pauseWith 0 false [.log "a"])), (25, .run 0),
    (1, .submit 1 (.pollFree 0)), (9, .run 1), (11, .run 0), (15, .run 1), (16, .run 0)]

end StopTheWorld
