import StopTheWorld.Proofs.Sound

namespace StopTheWorld

/-! Pauses with an action that keeps to the thread it runs on, and what those who take part in one have
on their stacks meanwhile. -/

mutual

/-- The operation does nothing but log, defer onto the record of the thread that performs it, and
unwind. -/
def Op.isLocal (m : ManagerId) : Op → Bool
  | .log _ | .unwind _ => true
  | .seq ops => areLocal m ops
  | .replicate _ op | .only _ op => op.isLocal m
  | .defer thread _ script => thread.isNone && areLocal m script
  | .deferLookup n thread _ script => n = m && thread.isNone && areLocal m script
  | _ => false

def areLocal (m : ManagerId) : List Op → Bool
  | [] => true
  | op :: ops => op.isLocal m && areLocal m ops

end

/-- A pause that one thread is to drive, with an action that keeps to the thread it runs on. -/
structure Assembly where
  manager : ManagerId
  driver : ThreadId
  action : List Op
  isLocal : areLocal manager action = true

/-- What holds of a frame of a participant, given the stack below it. -/
def Frame.Partakes (a : Assembly) (self : ThreadId) (rest : List Frame) : Frame → Prop
  | start op =>
    op.isLocal a.manager = true ∨ rest = [] ∧
      (op = .pollFree a.manager ∨
        self = a.driver ∧ op = .pauseWith a.manager false a.action)
  | script s => areLocal a.manager s.rest = true
  | sequence s => areLocal a.manager s.rest = true
  | drain d => ∀ queued ∈ d.queue, areLocal a.manager queued.script = true
  | phases p => p.drives = true → self = a.driver
  | arrival x => x.phaser = .registry (.manager a.manager)
  | resuming r => r.holdsGlobal = false
  | polling p => rest = [] ∧ p.holdsGlobal = false ∧ p.point ≠ .leaveGlobal
  | pausing p =>
    self = a.driver ∧ rest = [] ∧ p.holdsGlobal = false ∧ p.action = a.action ∧ p.point ≠ .poll
  | answer reply => self = a.driver ∧ ∀ failure, reply ≠ .failed failure
  | acquisition x =>
    self = a.driver ∧ x.lock = .pause a.manager ∧ x.owner = self ∧
      x.patience = .interruptible self (.staleEpoch a.manager) ∧
      (x.point = .install ∨ x.point = .test ∨ x.point = .restore true)
  | release lock _ | notify lock => self = a.driver ∧ lock = .pause a.manager
  | visit v =>
    self = a.driver ∧ v.registry = .manager a.manager ∧ v.except = some self ∧ self ∉ v.todo
  | interruption i => self = a.driver ∧ i.target ≠ self
  | _ => False

/-- The stack is that of a participant. No callback runs on it. -/
def Partakes (a : Assembly) (self : ThreadId) : List Frame → Prop
  | [] => True
  | frame :: rest => frame.Partakes a self rest ∧ inCallback rest = false ∧ Partakes a self rest

/-- What the control leaves on the stack of a participant is that of a participant. -/
def Control.Partakes (a : Assembly) (self : ThreadId) (rest : List Frame) : Control → Prop
  | goto frame => frame.Partakes a self rest
  | call frame back =>
    frame.Partakes a self (back :: rest) ∧ back.Partakes a self rest ∧ back.isInterruption = false
  | reply value => rest = [] ∨ ∀ failure, value ≠ .failed failure
  | unwind _ => True

section

variable {a : Assembly} {self : ThreadId} {frame handler : Frame} {rest : List Frame}

@[simp] theorem areLocal_nil (m : ManagerId) : areLocal m [] = true := rfl

@[simp] theorem areLocal_cons (m : ManagerId) (op : Op) (ops : List Op) :
    areLocal m (op :: ops) = (op.isLocal m && areLocal m ops) := by
  rw [areLocal]

@[simp] theorem areLocal_replicate (m : ManagerId) (times : Nat) {op : Op}
    (isLocal : op.isLocal m = true) : areLocal m (List.replicate times op) = true := by
  induction times with
  | zero => rfl
  | succ times ih => simp [List.replicate_succ, isLocal, ih]

theorem Op.isLocal_unguarded {m : ManagerId} {op : Op} (isLocal : op.isLocal m = true) :
    op.unguarded.isLocal m = true := by
  cases op with
  | only threads op => simpa [Op.isLocal, Op.unguarded] using isLocal
  | _ => exact isLocal

/-- Only a failure changes what a waiting frame is to the pause. -/
theorem Frame.Partakes.resume {value : Reply} (partakes : frame.Partakes a self rest)
    (returns : ∀ failure, value ≠ .failed failure) :
    (frame.resume value).Partakes a self rest := by
  cases frame <;> cases value <;>
    first | exact partakes | exact absurd rfl (returns _) | exact partakes.elim

theorem Frame.Partakes.catch {message : String} (partakes : frame.Partakes a self rest)
    (caught : frame.catch? message = some handler) : handler.Partakes a self rest := by
  unfold Frame.catch? at caught
  repeat' split at caught
  all_goals first
    | (obtain rfl := Option.some.inj caught
       first
         | exact partakes
         | exact partakes.elim
         | exact ⟨partakes.1, partakes.2.1, partakes.2.2.1, partakes.2.2.2.1, by simp⟩)
    | simp at caught

namespace Partakes

theorem tail (partakes : Partakes a self (frame :: rest)) : Partakes a self rest := partakes.2.2

theorem unwind (partakes : Partakes a self rest) (message : String) :
    Partakes a self (Frame.unwind message rest) := by
  induction rest with
  | nil => trivial
  | cons parent below ih =>
    unfold Frame.unwind
    split
    · rename_i handler caught
      exact ⟨partakes.1.catch caught, partakes.2⟩
    · exact ih partakes.tail

theorem step {control : Control} (partakes : Partakes a self (frame :: rest))
    (goes : control.Partakes a self rest) : Partakes a self (control.stack rest) := by
  cases control with
  | goto next => exact ⟨goes, partakes.2⟩
  | call child back =>
    exact ⟨goes.1, by simp [goes.2.2, partakes.2.1], goes.2.1, partakes.2⟩
  | reply value =>
    cases rest with
    | nil => trivial
    | cons parent below =>
      have returns := goes.resolve_left (List.cons_ne_nil _ _)
      exact ⟨partakes.tail.1.resume returns, partakes.tail.2⟩
  | unwind message => exact partakes.tail.unwind message

/-- Nobody but the driver ever owns the pause lock. -/
theorem disowns {stack : List Frame} (partakes : Partakes a self stack) (other : self ≠ a.driver) :
    (posture a.manager stack).owns = false := by
  induction stack with
  | nil => rfl
  | cons frame rest ih =>
    have below := ih partakes.tail
    have inner := partakes.1
    rw [posture_cons]
    generalize posture a.manager rest = place at below
    cases frame with
    | arrival x =>
      simp only [Frame.posture]
      split
      · rename_i leads point
        split
        · cases leads with
          | none => rfl
          | some => exact below
        · exact below
      · exact below
    | phases p =>
      simp only [Frame.posture]
      split
      · simp [Posture.owns] at below
      · rfl
    | polling p =>
      simp only [Frame.posture]
      split
      · rfl
      · exact below
    | pausing | answer | acquisition | release | notify | visit | interruption =>
      exact absurd inner.1 other
    | enrolment | withdrawal | entering => exact inner.elim
    | _ => exact below

end Partakes

end

end StopTheWorld
