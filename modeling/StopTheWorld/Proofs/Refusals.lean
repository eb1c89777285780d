import StopTheWorld.Proofs.Registering

namespace StopTheWorld

/-! When the calls that register a thread, or that drive a pause, fail, and with what. -/

/-- The calls that can be refused. -/
inductive Errand
  | enters
  | pauses
  | pausesFromOutside

/-- The frames of such a call, when it is about to look whether it is to be refused. -/
inductive Errand.Opens (m : ManagerId) : Errand → List Frame → Prop
  | enters {e : Entering} (manager : e.manager = m) (gate : e.point = .gate) :
      Opens m .enters [.entering e, .discard]
  | pauses {p : Pausing} (manager : p.manager = m) (gate : p.point = .gate) :
      Opens m .pauses [.pausing p]
  | pausesFromOutside {e : Entering} {f : Foreign} (manager : e.manager = m) (gate : e.point = .gate)
      (same : f.manager = m) (point : f.point = .pause) :
      Opens m .pausesFromOutside [.entering e, .foreign f]

/-- Why the call is refused, if it is. -/
def World.refusal? (w : World) (m : ManagerId) (thread : ThreadId) (errand : Errand) : Option Failure :=
  if w.isReentrant m thread then some .reentrantPause
  else match errand with
    | .pauses => if w.isRegistered m thread then none else some (.notRegistered thread)
    | .enters | .pausesFromOutside => none

/-- What a call replies that is refused for this reason, or not at all. -/
def Reply.ofRefusal (refusal : Option Failure) : Reply :=
  refusal.elim (.succeeded .nothing) .failed

/-- A refused call is about to reply. -/
inductive Refused (m : ManagerId) (self : ThreadId) (base : List Frame) (w : World) :
    Failure → List Frame → Prop
  | answers {failure : Failure} : Refused m self base w failure (.answer (.failed failure) :: base)
  | looks {p : Pausing} (manager : p.manager = m) (lookup : p.point = .lookup)
      (absent : w.isRegistered m self = false) :
      Refused m self base w (.notRegistered self) (.pausing p :: base)

/-- A call to drive a pause that is past the checks at its beginning, or what is left of it. -/
def Frame.isAdmitted : Frame → Prop
  | pausing p => p.point ≠ .gate ∧ p.point ≠ .lookup
  | answer reply => reply = .succeeded .nothing
  | rethrow _ => True
  | _ => False

/-- A frame of which this holds stands right on `base`. -/
def Upon (holds : Frame → Prop) (base stack : List Frame) : Prop :=
  ∃ above frame, stack = above ++ frame :: base ∧ holds frame

/-- What a call to drive a pause stands on: what called it, if not the call for which the thread
registers first. -/
inductive Hosts (base : List Frame) : List Frame → Prop
  | caller : Hosts base base
  | outside {f : Foreign} (point : f.point = .leave) : Hosts base (.foreign f :: base)

/-- A call goes on that is not refused. -/
inductive Granted (m : ManagerId) (self : ThreadId) (base : List Frame) (w : World) :
    List Frame → Prop
  | registers {parent : Frame} {stack : List Frame}
      (host : parent = .discard ∨ ∃ f, parent = .foreign f ∧ f.manager = m ∧ f.point = .pause)
      (registering : Registering m self parent base w stack) : Granted m self base w stack
  | returns {f : Foreign} (manager : f.manager = m) (point : f.point = .pause)
      (clear : w.Clear m self) (listed : w.isRegistered m self = true) :
      Granted m self base w (.foreign f :: base)
  | calls {p : Pausing} {below : List Frame} (host : Hosts base below) (manager : p.manager = m)
      (gate : p.point = .gate) (clear : w.Clear m self) (listed : w.isRegistered m self = true) :
      Granted m self base w (.pausing p :: below)
  | looks {p : Pausing} {below : List Frame} (host : Hosts base below) (manager : p.manager = m)
      (lookup : p.point = .lookup) (listed : w.isRegistered m self = true) :
      Granted m self base w (.pausing p :: below)
  | pauses {below stack : List Frame} (host : Hosts base below)
      (upon : Upon Frame.isAdmitted below stack) : Granted m self base w stack
  | leaves {f : Foreign} (point : f.point = .leave) (reply : f.reply = .succeeded .nothing) :
      Granted m self base w (.foreign f :: base)
  | abandons {f : Foreign} (point : f.point = .abandon) : Granted m self base w (.foreign f :: base)

section

variable {m : ManagerId} {self thread : ThreadId} {w v x : World} {frame parent : Frame}
  {rest above base below opening : List Frame} {effect : Effect} {notes : List Note}
  {moments pre call post : List Moment} {value : Reply} {custom : World → ThreadId → Prop}
  {holds : Frame → Prop} {failure : Failure}

/-! A frame that waits while others come and go above it. -/

/-- The step of a thread on a stack that a frame stands in. -/
theorem Upon.step (upon : Upon holds base (w.stack self)) (step : w.step self = some (v, notes))
    (resumes : ∀ {frame} value, holds frame → holds (frame.resume value))
    (catches : ∀ {frame message handler}, holds frame → frame.catch? message = some handler →
      holds handler) :
    Upon holds base (v.stack self) ∨
      (∃ frame effect, w.stack self = frame :: base ∧ holds frame ∧
        frame.advance self w = some effect ∧ v.stack self = effect.control.stack base) ∨
      ∃ message, v.stack self = Frame.unwind message base := by
  obtain ⟨above, frame, stack, held⟩ := upon
  obtain ⟨top, rest, effect, stands, advances, rfl, -⟩ := World.step_eq_some step
  rw [World.stack_setStack, if_pos rfl]
  rw [stands] at stack ⊢
  cases above with
  | nil =>
    obtain ⟨rfl, rfl⟩ := List.cons.inj stack
    exact .inr (.inl ⟨top, effect, rfl, held, advances, rfl⟩)
  | cons first above =>
    obtain ⟨rfl, rfl⟩ := List.cons.inj (stack.trans (List.cons_append ..))
    obtain ⟨above', same⟩ | ⟨-, value, -, same⟩ | ⟨message, -, same⟩ :=
      effect.control.stack_append above frame base
    · exact .inl ⟨above', frame, same, held⟩
    · exact .inl ⟨[], _, same, resumes value held⟩
    · rw [same]
      cases caught : frame.catch? message with
      | some handler =>
        refine .inl ⟨[], handler, ?_, catches held caught⟩
        simp [Frame.unwind, caught]
      | none =>
        refine .inr (.inr ⟨message, ?_⟩)
        simp [Frame.unwind, caught]

theorem Upon.other {move : Move} (upon : Upon holds base (w.stack self))
    (moves : w.move move = some (v, notes)) (other : move ≠ .run self)
    (firm : ∀ {frame frame' : Frame}, holds frame → ¬ frame.Rouses frame') :
    Upon holds base (v.stack self) := by
  obtain ⟨above, frame, stack, held⟩ := upon
  obtain ⟨-, same | ⟨op, idle, -⟩ | ⟨top, top', rest, before, after, rouses⟩⟩ :=
    World.move_other moves other
  · exact ⟨above, frame, same.trans stack, held⟩
  · simp [idle] at stack
  · rw [before] at stack
    cases above with
    | nil =>
      obtain ⟨rfl, -⟩ := List.cons.inj stack
      exact absurd rouses (firm held)
    | cons first above =>
      obtain ⟨-, rfl⟩ := List.cons.inj (stack.trans (List.cons_append ..))
      exact ⟨top' :: above, frame, after, held⟩

namespace Frame

theorem isAdmitted_resume (value : Reply) (admitted : frame.isAdmitted) :
    (frame.resume value).isAdmitted := by
  cases frame with
  | pausing p => cases value <;> first | exact admitted | simp [resume, isAdmitted]
  | answer | rethrow => exact admitted
  | _ => exact admitted.elim

theorem isAdmitted_catch {message : String} {handler : Frame} (admitted : frame.isAdmitted)
    (caught : frame.catch? message = some handler) : handler.isAdmitted := by
  cases frame with
  | pausing p =>
    simp only [catch?, Option.ite_none_right_eq_some] at caught
    obtain rfl := Option.some.inj caught.2
    simp [isAdmitted]
  | answer | rethrow => simp [catch?] at caught
  | _ => exact admitted.elim

theorem isAdmitted_firm {frame' : Frame} (admitted : frame.isAdmitted) : ¬ frame.Rouses frame' := by
  intro rouses
  cases rouses <;> exact admitted

/-- Once past its checks, a call to drive a pause goes on with it, or it succeeds or unwinds. -/
theorem isAdmitted_step (admitted : frame.isAdmitted) (step : frame.advance self w = some effect) :
    (∃ above frame', (∀ rest, effect.control.stack rest = above ++ frame' :: rest) ∧
        frame'.isAdmitted) ∨
      effect.control = .reply (.succeeded .nothing) ∨ ∃ message, effect.control = .unwind message := by
  cases frame with
  | answer reply =>
    obtain rfl := Option.some.inj step
    exact .inr (.inl (congrArg _ admitted))
  | rethrow message =>
    obtain rfl := Option.some.inj step
    exact .inr (.inr ⟨message, rfl⟩)
  | pausing p =>
    refine .inl ?_
    cases point : p.point with
    | gate | lookup => simp [isAdmitted, point] at admitted
    | leaveGlobal =>
      simp only [advance, Pausing.advance, point] at step
      split at step
      · obtain ⟨u, noted, -, rfl⟩ := World.leaves_of_bind step
        exact ⟨[], _, fun _ => rfl, by simp [isAdmitted]⟩
      · obtain rfl := Option.some.inj step
        exact ⟨[], _, fun _ => rfl, by simp [isAdmitted]⟩
    | wakeWaiters =>
      simp only [advance, Pausing.advance, point] at step
      obtain rfl := Option.some.inj step
      refine ⟨[_], _, fun _ => rfl, ?_⟩
      split <;> simp [isAdmitted]
    | lock | poll | interrupt | enterPhases | unlock | abandon =>
      simp only [advance, Pausing.advance, point] at step
      obtain rfl := Option.some.inj step
      exact ⟨[_], _, fun _ => rfl, by simp [isAdmitted]⟩
    | resume =>
      simp only [advance, Pausing.advance, point] at step
      obtain rfl := Option.some.inj step
      exact ⟨[_], _, fun _ => rfl, rfl⟩
    | _ =>
      simp only [advance, Pausing.advance, point] at step
      obtain rfl := Option.some.inj step
      exact ⟨[], _, fun _ => rfl, by simp [isAdmitted]⟩
  | _ => exact admitted.elim

end Frame

namespace Granted

/-- What a call to drive a pause replies to what it stands on. -/
theorem replied (hosts : Hosts base below) :
    Granted m self base w ((Control.reply (.succeeded .nothing)).stack below) ∨
      ((Control.reply (.succeeded .nothing)).stack below).length ≤ base.length := by
  cases hosts with
  | caller => exact .inr (Control.length_stack_le_reply _ _)
  | outside point =>
    refine .inl ?_
    simp only [Control.stack, Frame.resume, point]
    exact .leaves rfl rfl

theorem unwound (hosts : Hosts base below) (message : String) :
    Granted m self base w (Frame.unwind message below) ∨
      (Frame.unwind message below).length ≤ base.length := by
  cases hosts with
  | caller => exact .inr (Frame.length_unwind_le message base)
  | @outside f point =>
    cases caught : (Frame.foreign f).catch? message with
    | none => exact .inr (Frame.length_unwind_lt caught)
    | some handler =>
      simp only [Frame.unwind, caught]
      simp only [Frame.catch?, Option.ite_none_right_eq_some] at caught
      obtain rfl := Option.some.inj caught.2
      exact .inl (.abandons rfl)

/-- What other threads do leaves a call that is not refused where it is. -/
theorem other {move : Move} (granted : Granted m self base w (w.stack self)) (fitted : w.IsFitted)
    (moves : w.move move = some (v, notes)) (other : move ≠ .run self) :
    Granted m self base v (v.stack self) := by
  have listed : v.isRegistered m self = w.isRegistered m self :=
    World.isRegistered_other fitted moves other
  have stays {frame : Frame} {rest : List Frame} (stack : w.stack self = frame :: rest)
      (firm : ∀ frame', ¬ frame.Rouses frame') : v.stack self = frame :: rest := by
    obtain ⟨-, same | ⟨op, idle, -⟩ | ⟨_, frame', _, before, -, rouses⟩⟩ :=
      World.move_other moves other
    · exact same.trans stack
    · simp [idle] at stack
    · obtain ⟨rfl, -⟩ := List.cons.inj (before.symm.trans stack)
      exact absurd rouses (firm frame')
  generalize whole : w.stack self = stack at granted
  cases granted with
  | registers host registering =>
    exact .registers host (Registering.other (whole ▸ registering) fitted moves other)
  | returns manager point clear present =>
    rw [stays whole (by rintro _ ⟨⟩)]
    exact .returns manager point (clear.other fitted moves other) (listed ▸ present)
  | calls host manager gate clear present =>
    rw [stays whole (by rintro _ ⟨⟩)]
    exact .calls host manager gate (clear.other fitted moves other) (listed ▸ present)
  | looks host manager lookup present =>
    rw [stays whole (by rintro _ ⟨⟩)]
    exact .looks host manager lookup (listed ▸ present)
  | pauses host upon =>
    exact .pauses host (Upon.other (whole ▸ upon) moves other Frame.isAdmitted_firm)
  | leaves point reply =>
    rw [stays whole (by rintro _ ⟨⟩)]
    exact .leaves point reply
  | abandons point =>
    rw [stays whole (by rintro _ ⟨⟩)]
    exact .abandons point

/-- A call that is not refused goes on with what it is to do, as long as it lasts. -/
theorem step (granted : Granted m self base w (w.stack self))
    (step : w.step self = some (v, notes)) (on : base.length < (v.stack self).length) :
    Granted m self base v (v.stack self) := by
  generalize whole : w.stack self = stack at granted
  cases granted with
  | registers host registering =>
    rw [← whole] at registering
    obtain registering | ⟨⟨clear, listed⟩, added, stack⟩ := registering.step step
    · exact .registers host registering
    · rw [stack]
      obtain rfl | ⟨f, rfl, manager, point⟩ := host
      · exact .pauses .caller ⟨[], _, rfl, rfl⟩
      · simp only [Frame.resume, point]
        exact .returns manager rfl clear listed
  | @returns f manager point clear listed =>
    obtain ⟨frame, rest, effect, stack, advances, rfl, -⟩ := World.step_eq_some step
    obtain ⟨rfl, rfl⟩ := List.cons.inj (whole.symm.trans stack)
    simp only [Frame.advance, Foreign.advance, point] at advances
    obtain rfl := Option.some.inj advances
    rw [World.stack_setStack, if_pos rfl]
    exact .calls (.outside rfl) manager rfl (World.clear_setStack.mpr clear) listed
  | @calls p below host manager gate clear listed =>
    obtain ⟨frame, rest, effect, stack, advances, rfl, -⟩ := World.step_eq_some step
    obtain ⟨rfl, rfl⟩ := List.cons.inj (whole.symm.trans stack)
    subst manager
    simp only [Frame.advance, Pausing.advance, gate, World.isReentrant_eq_false_iff.mpr clear,
      Bool.false_eq_true, if_false] at advances
    obtain rfl := Option.some.inj advances
    rw [World.stack_setStack, if_pos rfl]
    exact .looks host rfl rfl listed
  | @looks p below host manager lookup listed =>
    obtain ⟨frame, rest, effect, stack, advances, rfl, -⟩ := World.step_eq_some step
    obtain ⟨rfl, rfl⟩ := List.cons.inj (whole.symm.trans stack)
    subst manager
    rw [World.isRegistered, Registry.contains_eq_isSome] at listed
    simp only [Frame.advance, Pausing.advance, lookup] at advances
    split at advances
    · simp_all
    · obtain rfl := Option.some.inj advances
      rw [World.stack_setStack, if_pos rfl]
      exact .pauses host ⟨[], _, rfl, by simp [Frame.isAdmitted]⟩
  | pauses host upon =>
    rw [← whole] at upon
    obtain upon | ⟨frame, effect, stack, admitted, advances, same⟩ | ⟨message, same⟩ :=
      upon.step step Frame.isAdmitted_resume Frame.isAdmitted_catch
    · exact .pauses host upon
    · rw [same] at on ⊢
      obtain ⟨above, frame', shape, admitted⟩ | replies | ⟨message, unwinds⟩ :=
        Frame.isAdmitted_step admitted advances
      · exact .pauses host ⟨above, frame', shape _, admitted⟩
      · rw [replies] at on ⊢
        exact (replied host).resolve_right (Nat.not_le.mpr on)
      · rw [unwinds] at on ⊢
        exact (unwound host message).resolve_right (Nat.not_le.mpr on)
    · rw [same] at on ⊢
      exact (unwound host message).resolve_right (Nat.not_le.mpr on)
  | @leaves f point reply =>
    obtain ⟨frame, rest, effect, stack, advances, rfl, -⟩ := World.step_eq_some step
    obtain ⟨rfl, rfl⟩ := List.cons.inj (whole.symm.trans stack)
    simp only [Frame.advance, Foreign.advance, point, reply] at advances
    rw [World.stack_setStack, if_pos rfl] at on ⊢
    split at advances <;> obtain rfl := Option.some.inj advances
    · exact .pauses .caller ⟨[_], _, rfl, rfl⟩
    · exact absurd on (Nat.not_lt.mpr (Control.length_stack_le_reply _ _))
  | @abandons f point =>
    obtain ⟨frame, rest, effect, stack, advances, rfl, -⟩ := World.step_eq_some step
    obtain ⟨rfl, rfl⟩ := List.cons.inj (whole.symm.trans stack)
    simp only [Frame.advance, Foreign.advance, point] at advances
    obtain rfl := Option.some.inj advances
    rw [World.stack_setStack, if_pos rfl]
    exact .pauses .caller ⟨[_], _, rfl, trivial⟩

/-- A call that is not refused does not fail. -/
theorem replies {moment : Moment}
    (granted : Granted m thread base moment.world (moment.world.stack thread))
    (replies : moment.Replies thread base value) : value = .succeeded .nothing := by
  obtain ⟨frame, effect, stack, step, control⟩ := replies.stands
  rw [stack] at granted
  generalize whole : frame :: base = stack at granted
  cases granted with
  | registers host registering =>
    rw [← whole] at registering
    cases registering
  | returns manager point =>
    obtain ⟨rfl, -⟩ := List.cons.inj whole
    simp only [Frame.advance, Foreign.advance, point] at step
    obtain rfl := Option.some.inj step
    simp at control
  | calls host manager gate clear =>
    obtain ⟨rfl, rfl⟩ := List.cons.inj whole
    subst manager
    simp only [Frame.advance, Pausing.advance, gate, World.isReentrant_eq_false_iff.mpr clear,
      Bool.false_eq_true, if_false] at step
    obtain rfl := Option.some.inj step
    simp at control
  | looks host manager lookup listed =>
    obtain ⟨rfl, rfl⟩ := List.cons.inj whole
    subst manager
    rw [World.isRegistered, Registry.contains_eq_isSome] at listed
    simp only [Frame.advance, Pausing.advance, lookup] at step
    split at step <;> obtain rfl := Option.some.inj step
    · simp_all
    · simp at control
  | pauses host upon =>
    obtain ⟨above, admitted, rfl, holds⟩ := upon
    cases host with
    | caller =>
      obtain rfl : above = [] := by
        have same := congrArg List.length whole
        simpa using same
      obtain ⟨rfl, -⟩ := List.cons.inj whole
      obtain ⟨above, frame', shape, -⟩ | same | ⟨message, same⟩ := Frame.isAdmitted_step holds step
      · have shape := shape []
        simp [control, Control.stack] at shape
      · exact Control.reply.inj (control.symm.trans same)
      · simp [control] at same
    | outside =>
      have same := congrArg List.length whole
      simp at same
      omega
  | leaves point reply =>
    obtain ⟨rfl, -⟩ := List.cons.inj whole
    simp only [Frame.advance, Foreign.advance, point] at step
    split at step <;> obtain rfl := Option.some.inj step
    · simp at control
    · exact (Control.reply.inj control).symm.trans reply
  | abandons point =>
    obtain ⟨rfl, -⟩ := List.cons.inj whole
    simp only [Frame.advance, Foreign.advance, point] at step
    obtain rfl := Option.some.inj step
    simp at control

end Granted

namespace Refused

theorem length {stack : List Frame} (refused : Refused m self base w failure stack) :
    stack.length = base.length + 1 := by
  cases refused <;> rfl

/-- A refused call replies with the thread's next step, which changes nothing else. -/
theorem step (refused : Refused m self base w failure (w.stack self)) :
    ∃ frame notes, w.stack self = frame :: base ∧
      frame.advance self w = some ⟨w, .reply (.failed failure), notes⟩ := by
  generalize whole : w.stack self = stack at refused
  cases refused with
  | answers => exact ⟨_, [], rfl, rfl⟩
  | looks manager lookup absent =>
    subst manager
    refine ⟨_, [], rfl, ?_⟩
    rw [World.isRegistered, Registry.contains_eq_isSome, Option.isSome_eq_false_iff,
      Option.isNone_iff_eq_none] at absent
    simp only [Frame.advance, Pausing.advance, lookup, absent]
    rfl

theorem other {move : Move} (refused : Refused m self base w failure (w.stack self))
    (fitted : w.IsFitted) (moves : w.move move = some (v, notes)) (other : move ≠ .run self) :
    Refused m self base v failure (v.stack self) := by
  have stays : v.stack self = w.stack self := by
    obtain ⟨-, same | ⟨op, idle, -⟩ | ⟨frame, frame', rest, before, -, rouses⟩⟩ :=
      World.move_other moves other
    · exact same
    · rw [idle] at refused
      cases refused
    · rw [before] at refused
      cases rouses <;> cases refused
  rw [stays]
  generalize w.stack self = stack at refused
  cases refused with
  | answers => exact .answers
  | looks manager lookup absent =>
    exact .looks manager lookup ((World.isRegistered_other fitted moves other).trans absent)

end Refused

namespace Errand.Opens

variable {errand : Errand}

/-- A call that is to be refused takes a step, and has replied or is about to. -/
theorem refused (opens : errand.Opens m opening) (stack : w.stack thread = opening ++ base)
    (refusal : w.refusal? m thread errand = some failure) :
    ∃ frame rest control notes, w.stack thread = frame :: rest ∧
      frame.advance thread w = some ⟨w, control, notes⟩ ∧
      (Refused m thread base (w.setStack thread (control.stack rest)) failure (control.stack rest) ∨
        rest = base ∧ control = .reply (.failed failure)) := by
  unfold World.refusal? at refusal
  cases opens with
  | @enters e manager gate =>
    have stack : w.stack thread = .entering e :: .discard :: base := stack
    subst manager
    split at refusal
    · obtain rfl := Option.some.inj refusal
      exact ⟨_, _, _, [], stack, by simp only [Frame.advance, Entering.advance, *]; rfl,
        .inl .answers⟩
    · simp at refusal
  | @pauses p manager gate =>
    have stack : w.stack thread = .pausing p :: base := stack
    subst manager
    split at refusal
    · obtain rfl := Option.some.inj refusal
      exact ⟨_, _, _, _, stack, by simp only [Frame.advance, Pausing.advance, *]; rfl,
        .inr ⟨rfl, rfl⟩⟩
    · simp only [Option.ite_none_left_eq_some, Bool.not_eq_true] at refusal
      obtain ⟨absent, same⟩ := refusal
      obtain rfl := Option.some.inj same
      refine ⟨_, _, .goto (.pausing { p with point := .lookup }), [], stack, ?_,
        .inl (.looks rfl rfl absent)⟩
      simp only [Frame.advance, Pausing.advance, *]
      rfl
  | @pausesFromOutside e f manager gate same point =>
    have stack : w.stack thread = .entering e :: .foreign f :: base := stack
    subst manager
    split at refusal
    · obtain rfl := Option.some.inj refusal
      have fails : (Frame.foreign f).resume (.failed .reentrantPause) =
          .answer (.failed .reentrantPause) := by simp [Frame.resume, point]
      refine ⟨_, _, .reply (.failed .reentrantPause), [], stack,
        by simp only [Frame.advance, Entering.advance, *]; rfl, .inl ?_⟩
      simp only [Control.stack, fails]
      exact .answers
    · simp at refusal

/-- A call that is not to be refused goes on. -/
theorem granted (opens : errand.Opens m opening) (stack : w.stack thread = opening ++ base)
    (passes : w.refusal? m thread errand = none) : Granted m thread base w (w.stack thread) := by
  have clear : w.Clear m thread := by
    rw [← World.isReentrant_eq_false_iff]
    cases reentrant : w.isReentrant m thread with
    | false => rfl
    | true => simp [World.refusal?, reentrant] at passes
  rw [stack]
  cases opens with
  | enters manager gate => exact .registers (.inl rfl) (.waits manager (.inl gate) clear)
  | pausesFromOutside manager gate same point =>
    exact .registers (.inr ⟨_, rfl, same, point⟩) (.waits manager (.inl gate) clear)
  | pauses manager gate =>
    have listed : w.isRegistered m thread = true := by
      rw [World.refusal?, World.isReentrant_eq_false_iff.mpr clear] at passes
      simpa using passes
    exact .calls .caller manager gate clear listed

end Errand.Opens

/-- Calls of a manager that can be refused are refused at once or not at all. -/
structure Refusals (m : ManagerId) (moments : List Moment) : Prop where
  /-- Whether a call fails, and with what, is seen from the world in which it is made. -/
  replies : ∀ {pre call post errand opening thread base value x}, moments = pre ++ (call ++ post) →
    errand.Opens m opening → Spans thread opening base value x call →
    value = .ofRefusal (x.refusal? m thread errand)
  /-- A call that is refused changes nothing. It need not wait, and replies with its second step if not
  with the first. -/
  refused : ∀ {pre call post errand opening thread base x failure}, moments = pre ++ (call ++ post) →
    errand.Opens m opening → Begun thread opening base x call →
    x.refusal? m thread errand = some failure →
    (∀ moment ∈ call, moment.Untouched thread ∧ (moment.world.step thread).isSome = true) ∧
      ∀ {first mid last later}, call = first :: (mid ++ last :: later) →
        last.move = .run thread → last.Replies thread base (.failed failure)
  /-- A thread that is to leave a manager from inside of a pause is done at once. -/
  leaves : ∀ {pre call post thread base x l}, moments = pre ++ (call ++ post) → l.point = .gate →
    Begun thread [.leaving l] base x call → (x.thread thread).inPause = true →
    ∃ only, call = [only] ∧ only.Replies thread base .nothing ∧ only.Untouched thread

/-- A step that is known to leave the rest of the world alone. -/
theorem Course.untouched {moment : Moment} {control : Control} (course : Course custom w moments v)
    (mem : moment ∈ moments) (stack : moment.world.stack thread = frame :: rest)
    (step : frame.advance thread moment.world = some ⟨moment.world, control, notes⟩) :
    moment.Untouched thread ∧ (moment.world.step thread).isSome = true := by
  have stack : (moment.world.thread thread).stack = frame :: rest := stack
  have steps : moment.world.step thread = some (moment.world.setStack thread (control.stack rest),
      notes ++ control.completion rest) := by
    simp [World.step, stack, step]
  refine ⟨fun runs => ⟨control.stack rest, ?_⟩, by simp [steps]⟩
  obtain ⟨before, after, rfl⟩ := List.append_of_mem mem
  obtain ⟨next, -, -, moved, -⟩ := course.split rfl
  rw [runs] at moved ⊢
  obtain ⟨-, same⟩ := Prod.mk.inj (Option.some.inj (moved.symm.trans steps))
  rw [same]
  exact steps

section

variable {errand : Errand} (idle : ∀ thread, w.stack thread = [])
  (course : Course custom w moments v) (parts : moments = pre ++ (call ++ post))
  (opens : errand.Opens m opening) (begun : Begun thread opening base x call)

include idle course parts opens begun

/-- A refused call has replied by its first step, or is about to. -/
theorem Begun.refused (refusal : x.refusal? m thread errand = some failure) :
    ∃ first later, call = first :: later ∧ first.world = x ∧
      (∃ frame rest control notes, x.stack thread = frame :: rest ∧
        frame.advance thread x = some ⟨x, control, notes⟩) ∧
      ∀ moment ∈ later, Refused m thread base moment.world failure (moment.world.stack thread) := by
  obtain ⟨frame, rest, control, told, stack, step, next⟩ := opens.refused begun.stack refusal
  obtain ⟨first, later, u, rfl, start, runs, steps, lasts⟩ := begun.lasts course idle parts
    (P := fun y => Refused m thread base y failure (y.stack thread))
    (fun {u noted} steps on => by
      obtain ⟨top, below, effect, stack', advances, rfl, -⟩ := World.step_eq_some steps
      obtain ⟨rfl, rfl⟩ := List.cons.inj (stack.symm.trans stack')
      obtain rfl := Option.some.inj (step.symm.trans advances)
      rw [World.stack_setStack, if_pos rfl] at on ⊢
      obtain refused | ⟨rfl, replies⟩ := next
      · exact refused
      · dsimp only at on
        rw [replies] at on
        exact absurd on (Nat.not_lt.mpr (Control.length_stack_le_reply _ _)))
    (fun {y z move noted} fitted refused moves on => by
      by_cases own : move = .run thread
      · subst own
        obtain ⟨top, below, effect, stack', advances, rfl, -⟩ := World.step_eq_some moves
        obtain ⟨frame, notes, stack, step⟩ := refused.step
        obtain ⟨rfl, rfl⟩ := List.cons.inj (stack.symm.trans stack')
        obtain rfl := Option.some.inj (step.symm.trans advances)
        rw [World.stack_setStack, if_pos rfl] at on
        exact absurd on (Nat.not_lt.mpr (Control.length_stack_le_reply _ _))
      · exact refused.other fitted moves own)
  exact ⟨first, later, rfl, start, ⟨frame, rest, control, told, stack, step⟩, lasts⟩

/-- A call that is not refused goes on from its first step. -/
theorem Begun.granted (passes : x.refusal? m thread errand = none) :
    ∀ moment ∈ call, Granted m thread base moment.world (moment.world.stack thread) := by
  have start := opens.granted begun.stack passes
  have keeps {y z : World} {move : Move} {noted : List Note} (fitted : y.IsFitted)
      (granted : Granted m thread base y (y.stack thread)) (moves : y.move move = some (z, noted))
      (on : base.length < (z.stack thread).length) :
      Granted m thread base z (z.stack thread) := by
    by_cases own : move = .run thread
    · exact granted.step (own ▸ moves) on
    · exact granted.other fitted moves own
  obtain ⟨first, later, u, rfl, rfl, -, -, lasts⟩ := begun.lasts course idle parts
    (P := fun y => Granted m thread base y (y.stack thread)) (fun steps on => start.step steps on) keeps
  exact List.forall_mem_cons.mpr ⟨start, lasts⟩

end

/-- From a world in which nobody does anything, whatever user code does, a call that registers a thread
or that drives a pause is refused if its caller owns the pause lock or is inside of a pause, and also
if it is to drive a pause without being registered; no other call fails. -/
theorem refusals_of_calls (idle : ∀ thread, w.stack thread = [])
    (course : Course custom w moments v) : Refusals m moments where
  replies := by
    rintro pre call post errand opening thread base value x parts opens
      ⟨begun, earlier, last, ends, replies⟩
    have among : last ∈ call := ends ▸ List.mem_append_right _ List.mem_cons_self
    cases refusal : x.refusal? m thread errand with
    | none => exact (begun.granted idle course parts opens refusal last among).replies replies
    | some failure =>
      obtain ⟨frame, effect, stack, step, control⟩ := replies.stands
      obtain ⟨first, later, rfl, rfl, -, refused⟩ := begun.refused idle course parts opens refusal
      obtain rfl | mem := List.mem_cons.mp among
      · -- The call is over with its first step.
        obtain ⟨frame', rest, control', notes, stack', step', next⟩ :=
          opens.refused begun.stack refusal
        obtain ⟨rfl, rfl⟩ := List.cons.inj (stack.symm.trans stack')
        obtain rfl := Option.some.inj (step.symm.trans step')
        obtain refused | ⟨-, failed⟩ := next
        · have short := Control.length_stack_le_reply value base
          dsimp only at control
          rw [control] at refused
          rw [refused.length] at short
          exact absurd short (Nat.not_succ_le_self _)
        · exact Control.reply.inj (control.symm.trans failed)
      · obtain ⟨frame', notes, stack', step'⟩ := (refused last mem).step
        obtain ⟨rfl, -⟩ := List.cons.inj (stack.symm.trans stack')
        obtain rfl := Option.some.inj (step.symm.trans step')
        exact (Control.reply.inj control).symm
  refused := by
    rintro pre call post errand opening thread base x failure parts opens begun refusal
    obtain ⟨first, later, rfl, start, ⟨frame, rest, control, notes, stack, step⟩, refused⟩ :=
      begun.refused idle course parts opens refusal
    refine ⟨fun moment mem => ?_, ?_⟩
    · have among : moment ∈ moments := by
        rw [parts]
        simp only [List.mem_append]
        exact .inr (.inl mem)
      obtain rfl | mem := List.mem_cons.mp mem
      · rw [← start] at stack step
        exact course.untouched among stack step
      · obtain ⟨frame, notes, stack, step⟩ := (refused moment mem).step
        exact course.untouched among stack step
    · rintro first' mid last later' same runs
      obtain ⟨rfl, rfl⟩ := List.cons.inj same
      obtain ⟨frame, notes, stack, step⟩ := (refused last (by simp)).step
      exact ⟨runs, frame, _, stack, step, rfl⟩
  leaves := by
    rintro pre call post thread base x l parts gate begun marked
    have stack : x.stack thread = .leaving l :: base := begun.stack
    have step : (Frame.leaving l).advance thread x =
        some ⟨x, .reply .nothing, [.trace (.leaveIgnored thread)]⟩ := by
      simp only [Frame.advance, Leaving.advance, gate, marked]
      rfl
    obtain ⟨first, later, u, rfl, rfl, runs, -, none⟩ := begun.lasts course idle parts
      (P := fun _ => False)
      (fun {u noted} steps on => by
        obtain ⟨top, below, effect, stack', advances, rfl, -⟩ := World.step_eq_some steps
        obtain ⟨rfl, rfl⟩ := List.cons.inj (stack.symm.trans stack')
        obtain rfl := Option.some.inj (step.symm.trans advances)
        rw [World.stack_setStack, if_pos rfl] at on
        exact absurd on (Nat.not_lt.mpr (Control.length_stack_le_reply _ _)))
      (fun _ none _ _ => none)
    obtain rfl : later = [] := List.eq_nil_iff_forall_not_mem.mpr none
    exact ⟨first, rfl, ⟨runs, _, _, stack, step, rfl⟩,
      (course.untouched (by simp [parts]) stack step).1⟩

/-- The call of a thread that is not registered, from the look at its own marks to the reply. -/
theorem refusals_of_calls_unregistered : ∃ (pre call : List Moment) (x v : World),
    (∀ thread, World.pair.stack thread = []) ∧
    Course (fun _ _ => True) World.pair (pre ++ (call ++ [])) v ∧
    Spans 0 [.pausing { manager := 0, holdsGlobal := false, action := [] }] []
      (.failed (.notRegistered 0)) x call ∧
    x.refusal? 0 0 .pauses = some (.notRegistered 0) ∧ ∀ moment ∈ call, moment.Untouched 0 := by
  have idle : ∀ thread, World.pair.stack thread = [] := World.pair_isFresh.idle
  let p : Pausing := { manager := 0, holdsGlobal := false, action := [] }
  let start := World.pair.setStack 0 [.start (.pauseWith 0 false [])]
  let x := start.setStack 0 [.pausing p]
  let y := x.setStack 0 [.pausing { p with point := .lookup }]
  let failed : Note := .completed (.failed (.notRegistered 0))
  have course : Course (fun _ _ => True) World.pair
      ([⟨World.pair, .submit 0 (.pauseWith 0 false []), []⟩, ⟨start, .run 0, []⟩] ++
        ([⟨x, .run 0, []⟩, ⟨y, .run 0, [failed]⟩] ++ [])) (y.setStack 0 []) :=
    ((Course.single (fun _ _ => trivial) rfl).snoc (fun _ _ => trivial) rfl).trans
      ((Course.single (fun _ _ => trivial) rfl).snoc (fun _ _ => trivial) rfl)
  have begun : Begun 0 [.pausing p] [] x [⟨x, .run 0, []⟩, ⟨y, .run 0, [failed]⟩] :=
    ⟨⟨_, _, rfl⟩, rfl, by simp [x, y]⟩
  have opens : Errand.pauses.Opens 0 [.pausing p] := .pauses rfl rfl
  have refusal : x.refusal? 0 0 .pauses = some (.notRegistered 0) := rfl
  obtain ⟨untouched, second⟩ := (refusals_of_calls idle course).refused rfl opens begun refusal
  exact ⟨_, _, x, _, idle, course,
    ⟨begun, [_], _, rfl, @second ⟨x, .run 0, []⟩ [] ⟨y, .run 0, [failed]⟩ [] rfl rfl⟩, refusal,
    fun moment mem => (untouched moment mem).1⟩

end

end StopTheWorld
