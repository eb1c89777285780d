import StopTheWorld.Proofs.Regained

namespace StopTheWorld

/-! Waiting outside the global lock goes in rounds: an attempt that is interrupted is followed by a
poll, and the poll by the next attempt, until an attempt comes out otherwise. -/

/-- What the loop of attempts does. -/
inductive Turn
  | tries (number : Nat) (how : Attempt)
  /-- The attempt comes out so. -/
  | gives (outcome : Reply)
  | polls (manager : ManagerId) (holdsGlobal : Bool)
  | polled

/-- What the loop does in a step of the topmost of these frames. -/
def turnOf (above : List Frame) (control : Control) : Option Turn :=
  match above, control with
  | [.blocking _], .call (.trial t) _ => some (.tries t.number t.how)
  | [.blocking _], .call (.polling p) _ => some (.polls p.manager p.holdsGlobal)
  | [_, .blocking b], .reply value =>
    if b.point = .judge then some (.gives value) else some .polled
  | _, _ => none

/-- The frames of a call, without those it stands on. -/
def framesAbove (base stack : List Frame) : List Frame :=
  stack.take (stack.length - base.length)

/-- What the loop of the call that stands on the base does at a moment. -/
def Moment.turn? (thread : ThreadId) (base : List Frame) (moment : Moment) : Option Turn :=
  match moment.world.stack thread with
  | [] => none
  | frame :: rest =>
    if moment.move.isOf thread then
      (frame.advance thread moment.world).bind fun effect =>
        turnOf (framesAbove base (frame :: rest)) effect.control
    else none

/-- What the loop has done after so many attempts that were interrupted. -/
def rounds (m : ManagerId) (attempts : List Attempt) : Nat → List Turn
  | 0 => []
  | n + 1 => rounds m attempts n ++
      [.tries (n + 1) (attempts.getD n .succeed), .gives (.failed .interrupted), .polls m false, .polled]

/-- What the loop has done when, after so many attempts that were interrupted, one gives the value. -/
def retries (m : ManagerId) (attempts : List Attempt) (n : Nat) (value : Reply) : List Turn :=
  rounds m attempts n ++ [.tries (n + 1) (attempts.getD n .succeed), .gives value]

/-- What the loop has done when it stands so; `busy` tells whether an attempt or a poll is on its way. -/
inductive Blocking.Loops (m : ManagerId) (asked : Bool) (attempts : List Attempt) :
    Blocking → Bool → List Turn → Prop
  | ready (n : Nat) (reply : Reply) :
      Loops m asked attempts ⟨m, asked, attempts.drop n, n, reply, .attempt⟩ false
        (rounds m attempts n)
  | tries (n : Nat) (reply : Reply) :
      Loops m asked attempts ⟨m, asked, attempts.drop (n + 1), n + 1, reply, .judge⟩ true
        (rounds m attempts n ++ [.tries (n + 1) (attempts.getD n .succeed)])
  | judges (n : Nat) (value : Reply) :
      Loops m asked attempts ⟨m, asked, attempts.drop (n + 1), n + 1, value, .judge⟩ false
        (retries m attempts n value)
  | polls (n : Nat) (reply : Reply) :
      Loops m asked attempts ⟨m, asked, attempts.drop (n + 1), n + 1, reply, .attempt⟩ true
        (retries m attempts n (.failed .interrupted) ++ [.polls m false])
  | settles (n : Nat) {value : Reply} (other : value ≠ .failed .interrupted) :
      Loops m asked attempts ⟨m, asked, attempts.drop (n + 1), n + 1, value, .reacquire⟩ false
        (retries m attempts n value)

/-- A call that makes attempts outside the global lock, stage by stage. `away` tells whether user code
has left the lock alone so far. -/
inductive Retrying (m : ManagerId) (asked : Bool) (attempts : List Attempt) (base : List Frame)
    (away : Prop) (holds : Bool) : List Turn → List Frame → Prop
  | begins (held : asked = false → holds = false) :
      Retrying m asked attempts base away holds []
        (.blocking { manager := m, holdsGlobal := asked, attempts := attempts } :: base)
  | loops (above : List Frame) {b : Blocking} {turns : List Turn}
      (loops : b.Loops m asked attempts (!above.isEmpty) turns)
      (alone : away → holds = false ∧ isBare above = true) :
      Retrying m asked attempts base away holds turns (above ++ .blocking b :: base)
  | settled (above : List Frame) {value : Reply} (n : Nat) (other : value ≠ .failed .interrupted) :
      Retrying m asked attempts base away holds (retries m attempts n value)
        (above ++ .answer value :: base)

/-- A call that is to take the lock only goes as the last part of one that makes attempts. -/
def Seeks (m : ManagerId) (g : GlobalId) (thread : ThreadId) (base : List Frame) (away : Prop)
    (holds : Bool) (stack : List Frame) : Prop :=
  ∃ frame above, stack = frame :: (above ++ base) ∧
    Regains m g thread base away holds (frame :: (above ++ .answer .nothing :: base))

/-- The thread performs the operation from the first moment on, and is still about it at the others. -/
structure Op.Pends (op : Op) (thread : ThreadId) (base : List Frame) (first : Moment)
    (others : List Moment) : Prop where
  runs : first.move = .run thread
  stack : first.world.stack thread = .start op :: base
  within : ∀ moment ∈ others, base.length < (moment.world.stack thread).length

/-- An attempt of the call that stands on the base is on its way, or a poll between two attempts. -/
def Moment.IsTrying (thread : ThreadId) (base : List Frame) (moment : Moment) : Prop :=
  ∃ top above b, moment.world.stack thread = top :: (above ++ .blocking b :: base)

/-- A poll is on its way that the call on the base makes when it has waited for the lock in vain. -/
def Moment.IsPolling (thread : ThreadId) (base : List Frame) (moment : Moment) : Prop :=
  ∃ above p a, moment.world.stack thread = above ++ .polling p :: .acquiring a :: base

section

variable {m : ManagerId} {g : GlobalId} {w v : World} {thread : ThreadId} {frame : Frame}
  {rest above base : List Frame} {effect : Effect} {control : Control} {notes : List Note}
  {moments : List Moment} {away away' : Prop} {holds asked : Bool} {attempts : List Attempt}
  {turns : List Turn} {b : Blocking}

@[simp] theorem framesAbove_append (above base : List Frame) :
    framesAbove base (above ++ base) = above := by
  simp [framesAbove]

/-- The loop does nothing while another call of the thread is on its way. -/
theorem turnOf_answer (above : List Frame) (value : Reply) (control : Control) :
    turnOf (above ++ [.answer value]) control = none := by
  match above with
  | [] => simp [turnOf]
  | [_] => simp [turnOf]
  | _ :: _ :: _ => simp [turnOf]

theorem turnOf_busy (stays : above = [] → ∀ value, control ≠ .reply value) :
    turnOf (frame :: (above ++ [.blocking b])) control = none := by
  match above with
  | [] =>
    cases control with
    | reply value => exact absurd rfl (stays rfl value)
    | _ => simp [turnOf]
  | _ :: _ => simp [turnOf]

namespace Blocking.Loops

/-- The loop goes on when what it waits for replies. -/
theorem resume (loops : b.Loops m asked attempts true turns) (frame : Frame) (value : Reply) :
    Loops m asked attempts { b with reply := value } false
      (turns ++ (turnOf [frame, .blocking b] (.reply value)).toList) := by
  cases loops with
  | tries n reply => simpa [turnOf, retries] using Loops.judges n value
  | polls n reply =>
    simpa [turnOf, retries, rounds] using Loops.ready (n + 1) value

/-- A step of the loop makes an attempt or a poll, or settles for what the attempt has given; in the
end, there is only the lock to be taken again. -/
theorem advance (loops : b.Loops m asked attempts false turns) (step : b.advance thread w = some effect) :
    effect.world = w ∧
    ((∃ child b', effect.control = .call child (.blocking b') ∧ child.isHandsOff = true ∧
        Loops m asked attempts b' true (turns ++ (turnOf [.blocking b] effect.control).toList)) ∨
      (∃ b', effect.control = .goto (.blocking b') ∧ Loops m asked attempts b' false turns) ∨
      ∃ n, b.reply ≠ .failed .interrupted ∧ turns = retries m attempts n b.reply ∧
        ((∃ a, effect.control = .call (.acquiring a) (.answer b.reply)) ∨
          effect.control = .reply b.reply)) := by
  cases loops with
  | ready n reply =>
    obtain rfl := Option.some.inj step
    refine ⟨rfl, .inl ⟨_, _, rfl, rfl, ?_⟩⟩
    have same : (attempts.drop n).headD .succeed = attempts.getD n .succeed := by
      rw [List.headD_eq_head?_getD, List.head?_drop, List.getD_eq_getElem?_getD]
    simpa [turnOf, same] using Loops.tries n reply
  | judges n value =>
    by_cases again : value = .failed .interrupted
    · subst again
      obtain rfl := Option.some.inj step
      exact ⟨rfl, .inl ⟨_, _, rfl, rfl, .polls n _⟩⟩
    · simp only [Blocking.advance] at step
      obtain rfl := Option.some.inj step
      exact ⟨rfl, .inr (.inl ⟨_, rfl, .settles n again⟩)⟩
  | settles n other =>
    simp only [Blocking.advance] at step
    split at step <;> obtain rfl := Option.some.inj step
    · exact ⟨rfl, .inr (.inr ⟨n, other, rfl, .inl ⟨_, rfl⟩⟩)⟩
    · exact ⟨rfl, .inr (.inr ⟨n, other, rfl, .inr rfl⟩)⟩

end Blocking.Loops

/-- What a step of the thread makes of the call: it goes on, or it returns what the last attempt gave, or
it is left by an unwinding. -/
inductive Retrying.Lands (m : ManagerId) (g : GlobalId) (thread : ThreadId) (asked : Bool)
    (attempts : List Attempt) (base : List Frame) (away : Prop) (turns : List Turn) (rest : List Frame)
    (effect : Effect) : Prop
  | stays (stage : Retrying m asked attempts base away (effect.world.holds g thread) turns
      (effect.control.stack rest))
  | returns {n : Nat} {value : Reply} (other : value ≠ .failed .interrupted)
      (done : turns = retries m attempts n value) (here : rest = base)
      (replies : effect.control = .reply value)
  | throws (above : List Frame) {message : String} (parts : rest = above ++ base)
      (unwinds : effect.control = .unwind message)
      (same : effect.control.stack rest = Frame.unwind message base)

namespace Retrying

theorem weaken {stack : List Frame} (stage : Retrying m asked attempts base away holds turns stack)
    (weaker : away' → away) : Retrying m asked attempts base away' holds turns stack := by
  cases stage with
  | begins held => exact .begins held
  | loops above loops alone => exact .loops above loops (alone ∘ weaker)
  | settled above n other => exact .settled above n other

/-- A step of the loop itself. -/
theorem loop (loops : b.Loops m asked attempts false turns) (free : away → w.holds g thread = false)
    (step : b.advance thread w = some effect) :
    Lands m g thread asked attempts base away
      (turns ++ (turnOf [.blocking b] effect.control).toList) base effect := by
  obtain ⟨same, ⟨child, b', control, hands, next⟩ | ⟨b', control, next⟩ |
    ⟨n, other, done, ⟨a, control⟩ | control⟩⟩ := loops.advance step
  · refine .stays ?_
    rw [same, show effect.control.stack base = [child] ++ .blocking b' :: base by rw [control]; rfl]
    exact .loops [child] next fun alone => ⟨free alone, by simp [isBare, hands]⟩
  · refine .stays ?_
    rw [same, control, show turnOf [.blocking b] (.goto (.blocking b')) = none by simp [turnOf],
      Option.toList_none, List.append_nil]
    exact .loops [] next fun alone => ⟨free alone, rfl⟩
  · refine .stays ?_
    rw [control, done, show turnOf [.blocking b] (.call (.acquiring a) (.answer b.reply)) = none by
      simp [turnOf], Option.toList_none, List.append_nil]
    exact .settled [.acquiring a] n other
  · exact .returns (n := n) other (by simp [control, turnOf, done]) rfl control

/-- A step of the thread takes the call on, or ends it. -/
theorem own (stage : Retrying m asked attempts base away (w.holds g thread) turns (frame :: rest))
    (lock : (w.manager m).globalLock = g)
    (leaves : away' → away ∧ ∀ above, rest = above ++ base → above.any (·.isScript) = true →
      ∀ owner, frame.handles? thread w ≠ some (g, owner))
    (step : frame.advance thread w = some effect) :
    Lands m g thread asked attempts base away'
      (turns ++ (turnOf (framesAbove base (frame :: rest)) effect.control).toList) rest effect := by
  have turn (above : List Frame) (parts : frame :: rest = above ++ base) :
      framesAbove base (frame :: rest) = above := by
    rw [parts, framesAbove_append]
  generalize framesAbove base (frame :: rest) = now at turn ⊢
  generalize shape : frame :: rest = stack at stage
  cases stage with
  | begins held =>
    obtain ⟨rfl, rfl⟩ := List.cons.inj shape
    obtain rfl := turn [_] rfl
    obtain ⟨v, notes, free, rfl⟩ : ∃ v notes, v.holds g thread = false ∧
        effect = ⟨v, .goto (.blocking ⟨m, asked, attempts, 0, .nothing, .attempt⟩), notes⟩ := by
      cases asked with
      | false =>
        obtain rfl := Option.some.inj step
        exact ⟨w, _, held rfl, rfl⟩
      | true =>
        obtain ⟨v, notes, left, rfl⟩ := World.leaves_of_bind step
        rw [lock] at left
        exact ⟨v, notes, World.holds_leaveGlobal left, rfl⟩
    refine .stays ?_
    exact .loops [] (.ready 0 .nothing) fun _ => ⟨free, rfl⟩
  | @loops above b _ loops alone =>
    cases above with
    | nil =>
      obtain ⟨rfl, rfl⟩ := List.cons.inj shape
      obtain rfl := turn [_] rfl
      exact loop loops (fun far => (alone (leaves far).1).1) step
    | cons top above =>
      obtain ⟨rfl, rfl⟩ := List.cons.inj shape
      have far (alone' : away') :
          effect.world.holds g thread = false ∧ isBare (effect.control.stack above) = true := by
        obtain ⟨earlier, now⟩ := leaves alone'
        obtain ⟨free, bare⟩ := alone earlier
        refine ⟨?_, isBare_stack bare (Frame.isHandsOff_step · step)⟩
        rw [isBare_holds bare (fun script => ?_) step, free]
        exact now (above ++ [.blocking b]) (by simp) (by simp [script])
      obtain rfl := turn (frame :: (above ++ [.blocking b])) (by simp)
      obtain ⟨top, above', on, same⟩ | ⟨rfl, value, replies⟩ | ⟨message, unwinds, same⟩ :=
        effect.control.stack_cut above
      · rw [turnOf_busy, Option.toList_none, List.append_nil]
        · refine .stays (same (.blocking b :: base) ▸ ?_)
          exact .loops (top :: above') loops (on ▸ far)
        · rintro rfl value replies
          rw [replies] at on
          cases on
      · refine .stays ?_
        rw [replies]
        exact .loops [] (loops.resume frame value) fun far' => ⟨(far far').1, rfl⟩
      · exact .throws (above ++ [.blocking b]) (by simp) unwinds (same _)
  | @settled above value n other =>
    cases above with
    | nil =>
      obtain ⟨rfl, rfl⟩ := List.cons.inj shape
      obtain rfl := Option.some.inj step
      obtain rfl := turn [_] rfl
      exact .returns (n := n) other (by simp [turnOf]) rfl rfl
    | cons top above =>
      obtain ⟨rfl, rfl⟩ := List.cons.inj shape
      obtain rfl := turn (frame :: above ++ [.answer value]) (by simp)
      rw [turnOf_answer, Option.toList_none, List.append_nil]
      obtain ⟨top, above', on, same⟩ | ⟨rfl, value', replies⟩ | ⟨message, unwinds, same⟩ :=
        effect.control.stack_cut above
      · exact .stays (same (.answer value :: base) ▸ .settled (top :: above') n other)
      · refine .stays ?_
        rw [replies]
        exact .settled [] n other
      · exact .throws (above ++ [.answer value]) (by simp) unwinds (same _)

/-- What others do leaves the call as it is. -/
theorem other {move : Move}
    (stage : Retrying m asked attempts base away (w.holds g thread) turns (w.stack thread))
    (same : v.holds g thread = w.holds g thread)
    (moves : w.move move = some (v, notes)) (other : move ≠ .run thread) :
    Retrying m asked attempts base away (v.holds g thread) turns (v.stack thread) := by
  rw [same]
  obtain ⟨-, still | ⟨op, idle, -⟩ | ⟨top, top', rest, before, after, rouses⟩⟩ :=
    World.move_other moves other
  · exact still ▸ stage
  · rw [idle] at stage
    generalize none : ([] : List Frame) = stack at stage
    cases stage <;> simp at none
  · rw [before] at stage
    rw [after]
    have hands := rouses.isHandsOff
    generalize shape : top :: rest = stack at stage
    cases stage with
    | begins => obtain ⟨rfl, -⟩ := List.cons.inj shape; cases rouses
    | @loops above b _ loops alone =>
      cases above with
      | nil => obtain ⟨rfl, -⟩ := List.cons.inj shape; cases rouses
      | cons first above =>
        obtain ⟨rfl, rfl⟩ := List.cons.inj shape
        refine .loops (top' :: above) loops fun far => (alone far).imp_right fun bare => ?_
        simpa [isBare, hands.1, hands.2] using bare
    | settled above n other =>
      cases above with
      | nil => obtain ⟨rfl, -⟩ := List.cons.inj shape; cases rouses
      | cons first above =>
        obtain ⟨rfl, rfl⟩ := List.cons.inj shape
        exact .settled (top' :: above) n other

/-- A move takes the call on, or is a step of the thread that ends it: with what the last attempt gave,
or with an unwinding. -/
theorem move {move : Move}
    (stage : Retrying m asked attempts base away (w.holds g thread) turns (w.stack thread))
    (unguarded : w.IsUnguarded) (lock : (w.manager m).globalLock = g)
    (personal : ∀ thread, move = .run thread → Personal w thread)
    (weaker : away' → away ∧ Moment.LeavesAlone g thread base ⟨w, move, notes⟩)
    (moves : w.move move = some (v, notes)) :
    Retrying m asked attempts base away' (v.holds g thread)
        (turns ++ (Moment.turn? thread base ⟨w, move, notes⟩).toList) (v.stack thread) ∨
      (v.stack thread).length ≤ base.length ∧
        ((∃ n value, value ≠ .failed .interrupted ∧
            turns ++ (Moment.turn? thread base ⟨w, move, notes⟩).toList = retries m attempts n value ∧
            Moment.Replies thread base value ⟨w, move, notes⟩) ∨
          Moment.Throws thread base ⟨w, move, notes⟩) := by
  by_cases own : move = .run thread
  · subst own
    obtain ⟨frame, rest, effect, stack, step, rfl, -⟩ := World.step_eq_some moves
    rw [stack] at stage
    have turn : Moment.turn? thread base ⟨w, .run thread, notes⟩ =
        turnOf (framesAbove base (frame :: rest)) effect.control := by
      simp [Moment.turn?, stack, step, Move.isOf]
    rw [World.holds_setStack, World.stack_setStack, if_pos rfl, turn]
    cases stage.own lock (fun alone => (weaker alone).imp_right fun leaves above parts script owner =>
        leaves frame above rfl (stack.trans (parts ▸ rfl)) script owner) step with
    | stays stage => exact .inl stage
    | @returns n value other done here replies =>
      refine .inr ⟨?_, .inl ⟨n, value, other, done, rfl, frame, effect, here ▸ stack, step, replies⟩⟩
      rw [here, replies]
      exact Control.length_stack_le_reply value base
    | @throws above message parts unwinds same =>
      exact .inr ⟨same ▸ Frame.length_unwind_le message base, .inr ⟨rfl, frame, above, effect, message,
        parts ▸ stack, step, unwinds, parts ▸ same⟩⟩
  · have silent : Moment.turn? thread base ⟨w, move, notes⟩ = none := by
      unfold Moment.turn?
      split
      · rfl
      · rw [if_neg fun runs => own (Move.isOf_iff.mp runs)]
    rw [silent, Option.toList_none, List.append_nil]
    exact .inl ((stage.other (unguarded.holds_other personal moves own) moves own).weaken
      fun alone => (weaker alone).1)

theorem deep {stack : List Frame} (stage : Retrying m asked attempts base away holds turns stack) :
    base.length < stack.length := by
  cases stage <;> simp only [List.length_append, List.length_cons] <;> omega

theorem free {moment : Moment} (trying : moment.IsTrying thread base)
    (stage : Retrying m asked attempts base away holds turns (moment.world.stack thread)) :
    away → holds = false := by
  obtain ⟨top, above, b, stack⟩ := trying
  rw [stack] at stage
  generalize shape : top :: (above ++ .blocking b :: base) = stack at stage
  cases stage with
  | begins =>
    have short := congrArg List.length shape
    simp only [List.length_cons, List.length_append] at short
    omega
  | loops above loops alone => exact fun far => (alone far).1
  | settled above n other =>
    rw [← List.cons_append] at shape
    cases (List.append_inj' shape rfl).2

end Retrying

namespace Regains

variable {value : Reply}

theorem answered (stage : Regains m g thread base away holds (.answer value :: base)) :
    holds = true := by
  generalize shape : Frame.answer value :: base = stack at stage
  cases stage with
  | answers held => exact held
  | @tries above =>
    have parts : [] ++ Frame.answer value :: base = above ++ .blocking _ :: base := shape
    cases (List.append_inj' parts rfl).2
  | begins => cases shape
  | _ =>
    have short := congrArg List.length shape
    simp only [List.length_cons, List.length_append] at short
    omega

/-- While a call that waits for the lock polls, the lock is not with the caller. -/
theorem polling {p : Polling} {a : Acquiring}
    (stage : Regains m g thread base away holds
      (above ++ .polling p :: .acquiring a :: .answer value :: base)) : away → holds = false := by
  generalize shape : above ++ .polling p :: .acquiring a :: .answer value :: base = stack at stage
  cases stage with
  | seeks manager point bare => exact fun far => (bare far).1
  | @tries above' =>
    rw [List.append_cons, List.append_cons] at shape
    cases (List.append_inj' shape rfl).2
  | waits manager point ref own early free =>
    exact free
  | @restores x a' value' =>
    have parts : above ++ Frame.polling p :: .acquiring a :: .answer value :: base =
        [] ++ .acquisition x :: .acquiring a' :: .answer value' :: base := shape
    cases (List.append_inj' parts rfl).2
  | _ =>
    have short := congrArg List.length shape
    simp only [List.length_cons, List.length_append] at short
    omega

end Regains

namespace Seeks

/-- A step of the thread takes the call on, or ends it. -/
theorem own (stage : Regains m g thread base away (w.holds g thread)
      (frame :: (above ++ .answer .nothing :: base)))
    (lock : (w.manager m).globalLock = g)
    (leaves : away' → away ∧ (above.any (·.isScript) = true →
      ∀ owner, frame.handles? thread w ≠ some (g, owner)))
    (step : frame.advance thread w = some effect) :
    Seeks m g thread base away' (effect.world.holds g thread) (effect.control.stack (above ++ base)) ∨
      (above = [] ∧ (∃ value, effect.control = .reply value) ∧ effect.world.holds g thread = true) ∨
      ∃ message, effect.control = .unwind message ∧
        effect.control.stack (above ++ base) = Frame.unwind message base := by
  have leaves' (alone : away') : away ∧ ∀ above', above ++ .answer .nothing :: base = above' ++ base →
      above'.any (·.isScript) = true → ∀ owner, frame.handles? thread w ≠ some (g, owner) := by
    refine (leaves alone).imp_right fun now above' parts script => now ?_
    rw [List.append_cons] at parts
    obtain rfl := List.append_cancel_right parts
    simpa [Frame.isScript] using script
  have apart : above ++ .answer .nothing :: base ≠ base := fun here => by
    have short := congrArg List.length here
    simp only [List.length_cons, List.length_append] at short
    omega
  obtain ⟨frame', above', -, same⟩ | ⟨rfl, value, replies⟩ | ⟨message, unwinds, same⟩ :=
    effect.control.stack_cut above
  · cases stage.own lock leaves' step with
    | stays stage => exact .inl ⟨frame', above', same base, same _ ▸ stage⟩
    | returns here => exact absurd here apart
    | throws _ _ gone =>
      have short := gone ▸ Frame.length_unwind_le _ base
      simp only [same, List.length_cons, List.length_append] at short
      omega
  · refine .inr (.inl ⟨rfl, ⟨value, replies⟩, ?_⟩)
    cases stage.own lock leaves' step with
    | stays stage =>
      rw [replies] at stage
      exact Regains.answered stage
    | returns here => exact absurd here apart
    | throws _ unwinds => simp [replies] at unwinds
  · exact .inr (.inr ⟨message, unwinds, same base⟩)

theorem move {move : Move} (stage : Seeks m g thread base away (w.holds g thread) (w.stack thread))
    (unguarded : w.IsUnguarded) (lock : (w.manager m).globalLock = g)
    (personal : ∀ thread, move = .run thread → Personal w thread)
    (weaker : away' → away ∧ Moment.LeavesAlone g thread base ⟨w, move, notes⟩)
    (moves : w.move move = some (v, notes)) :
    Seeks m g thread base away' (v.holds g thread) (v.stack thread) ∨
      (v.stack thread).length ≤ base.length ∧
        (v.holds g thread = true ∨ Moment.Throws thread base ⟨w, move, notes⟩) := by
  obtain ⟨frame, above, stack, stage⟩ := stage
  by_cases own : move = .run thread
  · subst own
    obtain ⟨top, rest, effect, stack', step, rfl, -⟩ := World.step_eq_some moves
    obtain ⟨rfl, rfl⟩ := List.cons.inj (stack'.symm.trans stack)
    rw [World.holds_setStack, World.stack_setStack, if_pos rfl]
    obtain next | ⟨rfl, ⟨value, replies⟩, held⟩ | ⟨message, unwinds, same⟩ :=
      Seeks.own stage lock (fun alone => (weaker alone).imp_right fun leaves script =>
        leaves top above rfl stack script) step
    · exact .inl next
    · exact .inr ⟨replies ▸ Control.length_stack_le_reply value base, .inl held⟩
    · exact .inr ⟨same ▸ Frame.length_unwind_le message base,
        .inr ⟨rfl, top, above, effect, message, stack, step, unwinds, same⟩⟩
  · left
    rw [unguarded.holds_other personal moves own]
    obtain ⟨-, still | ⟨op, idle, -⟩ | ⟨top, top', rest, before, after, rouses⟩⟩ :=
      World.move_other moves own
    · exact ⟨frame, above, still.trans stack, stage.weaken fun alone => (weaker alone).1⟩
    · simp [stack] at idle
    · obtain ⟨rfl, rfl⟩ := List.cons.inj (before.symm.trans stack)
      exact ⟨top', above, after, (stage.rouse rouses).weaken fun alone => (weaker alone).1⟩

theorem deep {stack : List Frame} (stage : Seeks m g thread base away holds stack) :
    base.length < stack.length := by
  obtain ⟨frame, above, rfl, -⟩ := stage
  simp only [List.length_append, List.length_cons]
  omega

theorem free {moment : Moment} (polls : moment.IsPolling thread base)
    (stage : Seeks m g thread base away holds (moment.world.stack thread)) : away → holds = false := by
  obtain ⟨frame, above, stack, stage⟩ := stage
  obtain ⟨above', p, a, there⟩ := polls
  rw [there, List.append_cons, List.append_cons, ← List.cons_append] at stack
  have same := List.append_cancel_right stack
  rw [← List.cons_append, ← same] at stage
  exact Regains.polling (by simpa using stage)

end Seeks

section Courses

variable {op : Op} {pre early late : List Moment} {first moment : Moment}

/-- What holds of a call once it has begun, and is kept by every move that does not end it, holds as long
as the call lasts. -/
theorem Course.pending {P : List Moment → World → Prop} (course : Course Personal w moments v)
    (fresh : w.IsFresh m) (parts : moments = pre ++ first :: (early ++ moment :: late))
    (pends : op.Pends thread base first (early ++ [moment]))
    (start : ∀ {effect : Effect}, op.advance thread first.world = some effect →
      P [] (effect.world.setStack thread (effect.control.stack base)))
    (step : ∀ {moments : List Moment} {x y : World} {move : Move} {notes : List Note}, P moments x →
      x.IsUnguarded → (x.manager m).globalLock = (w.manager m).globalLock →
      (∀ thread, move = .run thread → Personal x thread) → x.move move = some (y, notes) →
      base.length < (y.stack thread).length → P (moments ++ [⟨x, move, notes⟩]) y) :
    P early moment.world := by
  obtain ⟨w₁, before, personal₁, moved₁, after⟩ := course.split parts
  obtain ⟨-, during, -⟩ := after.split rfl
  have begun := before.trans (.single personal₁ moved₁)
  rw [pends.runs] at moved₁
  obtain ⟨frame, rest, effect, stack, advance, rfl, -⟩ := World.step_eq_some moved₁
  obtain ⟨rfl, rfl⟩ := List.cons.inj (stack.symm.trans pends.stack)
  refine during.lasting (start advance) (fun reached kept personal moves on => ?_)
    (fun moment mem => pends.within moment (List.mem_append_left _ mem)) (pends.within moment (by simp))
  have course := begun.trans reached
  exact step kept (course.isUnguarded fresh.isUnguarded fresh.isLaid) course.globalLock_eq personal moves
    on

theorem Course.seeks (course : Course Personal w moments v)
    (fresh : w.IsFresh m) (parts : moments = pre ++ first :: (early ++ moment :: late))
    (pends : Op.Pends (.acquire m) thread base first (early ++ [moment]))
    (free : first.world.holds (w.manager m).globalLock thread = false) :
    Seeks m (w.manager m).globalLock thread base
      (∀ moment ∈ early, moment.LeavesAlone (w.manager m).globalLock thread base)
      (moment.world.holds (w.manager m).globalLock thread) (moment.world.stack thread) := by
  refine course.pending (P := fun moments v => Seeks m (w.manager m).globalLock thread base
      (∀ moment ∈ moments, moment.LeavesAlone (w.manager m).globalLock thread base)
      (v.holds (w.manager m).globalLock thread) (v.stack thread)) fresh parts pends (fun advance => ?_)
    (fun stage unguarded lock personal moves on => ?_)
  · obtain rfl := Option.some.inj advance
    rw [World.stack_setStack, if_pos rfl, World.holds_setStack]
    have stage : Regains m (w.manager m).globalLock thread base (∀ moment ∈ [],
        Moment.LeavesAlone (w.manager m).globalLock thread base moment)
        (first.world.holds (w.manager m).globalLock thread)
        ([] ++ .acquiring { manager := m } :: .answer .nothing :: base) :=
      .seeks rfl (by simp) fun _ => ⟨free, rfl⟩
    exact ⟨_, [], rfl, stage⟩
  · simp only [List.forall_mem_append, List.forall_mem_singleton]
    exact (stage.move unguarded lock personal id moves).resolve_right
      fun ended => absurd on (Nat.not_lt.mpr ended.1)

end Courses

section Runs

variable {first last : Moment} {mid : List Moment} {check : Op → Bool}

theorem Op.Lasts.pends {op : Op} (lasts : op.Lasts thread base first mid last v) :
    op.Pends thread base first (mid ++ [last]) :=
  ⟨lasts.runs, lasts.stack, lasts.within⟩

/-- Decides whether an operation that passes the check goes on from the one moment to the other. -/
def spans (check : Op → Bool) (thread : ThreadId) (first : Moment) (mid : List Moment)
    (last : Moment) : Bool :=
  first.move.isOf thread && (soleOp? (first.world.stack thread)).any check &&
    (mid ++ [last]).all (fun moment => !(moment.world.stack thread).isEmpty) &&
    (last.world.move last.move).any fun moved => (moved.1.stack thread).isEmpty

end Runs

end

end StopTheWorld
