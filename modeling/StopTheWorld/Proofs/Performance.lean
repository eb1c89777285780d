import StopTheWorld.Proofs.Agreement
import StopTheWorld.Proofs.Orderly
import StopTheWorld.Proofs.Sound

namespace StopTheWorld

/-! What a single step does: each is a deed of the protocol, and most are none. -/

/-- What is known of a thread that is about to take a step. -/
structure Ready (m : ManagerId) (thread : ThreadId) (w : World) (stack : List Frame) : Prop where
  sound : Sound m thread stack
  mark : (w.thread thread).inPause = isMarked stack
  bonded : ∀ record ∈ bonds stack,
    ∃ entry, (w.core m).lookup thread = some entry ∧ entry.record = record
  admits : (w.core m).Admits thread (posture m stack)
  departs : posture m stack = .departing → (w.core m).phaser.parties ≠ 0
  stale : (w.core m).epoch.valid = false →
    (w.core m).phaser.phase ≤ 3 * (w.core m).pauses + 1

/-- The effect of a step of the top frame of a thread is that the thread does this deed. -/
structure Effect.Performs (m : ManagerId) (thread : ThreadId) (w : World) (frame : Frame)
    (rest : List Frame) (effect : Effect) (deed : Deed) : Prop where
  core : effect.world.core m = (w.core m).after thread deed
  notes : effect.notes.filter (·.tellsOf m) = (w.core m).notes m thread deed
  stack : ∀ other, effect.world.stack other = w.stack other
  others : ∀ other, other ≠ thread →
    (effect.world.thread other).inPause = (w.thread other).inPause
  mark : (effect.world.thread thread).inPause = isMarked (effect.control.stack rest)
  advances : Advances (w.core m) thread (posture m (frame :: rest)) deed
    (posture m (effect.control.stack rest))
  sound : Sound m thread (effect.control.stack rest)
  bonded : ∀ record ∈ bonds (effect.control.stack rest), record ∈ bonds (frame :: rest) ∨
    ∃ entry, (w.core m).lookup thread = some entry ∧ entry.record = record
  leaves : deed = .remove → bonds (effect.control.stack rest) = []

section

variable {m : ManagerId} {self : ThreadId} {w : World} {frame : Frame} {rest : List Frame}
  {effect : Effect}

theorem Effect.Performs.calm {v : World} {control : Control} {notes : List Note}
    (ready : Ready m self w (frame :: rest)) (agrees : w.Agrees m v) (silent : Silent m notes)
    (follows : Follows m self (frame :: rest) (control.stack rest)) :
    (Effect.mk v control notes).Performs m self w frame rest .nothing where
  core := agrees.core
  notes := silent.filter
  stack := agrees.stack
  others other _ := agrees.inPause other
  mark := by rw [agrees.inPause, ready.mark, follows.marks]
  advances := by
    rw [follows.posture]
    exact .stay _
  sound := follows.sound
  bonded record mem := .inl (follows.bonds mem)
  leaves := by simp

theorem Follows.goto {frame' : Frame} (sound : Sound m self (frame :: rest))
    (fits : frame'.Fits m self rest) (stands : frame'.Awaited m rest)
    (same : frame'.posture m (StopTheWorld.posture m rest) =
      frame.posture m (StopTheWorld.posture m rest))
    (marks : frame'.marks = frame.marks) (bond : frame'.bond? = none ∨ frame'.bond? = frame.bond?) :
    Follows m self (frame :: rest) ((Control.goto frame').stack rest) := by
  refine ⟨⟨fits, stands, sound.tail⟩, same, ?_, ?_⟩
  · simp [Control.stack, marks]
  · rcases bond with bond | bond <;> simp [Control.stack, bond]

theorem Follows.call {frame' back : Frame} (sound : Sound m self (frame :: rest))
    (fits : frame'.Fits m self (back :: rest)) (stands : back.Awaits m frame' rest)
    (fitsBack : back.Fits m self rest) (standsBack : back.Awaited m rest)
    (same : frame'.posture m (back.posture m (StopTheWorld.posture m rest)) =
      frame.posture m (StopTheWorld.posture m rest))
    (marks : (frame'.marks || back.marks) = frame.marks)
    (bond : frame'.bond? = none) (bondBack : back.bond? = none ∨ back.bond? = frame.bond?) :
    Follows m self (frame :: rest) ((Control.call frame' back).stack rest) := by
  refine ⟨⟨fits, stands, fitsBack, standsBack, sound.tail⟩, same, ?_, ?_⟩
  · simp only [Control.stack, isMarked_cons, ← Bool.or_assoc, marks]
  · rcases bondBack with bondBack | bondBack <;> simp [Control.stack, bond, bondBack]

/-- The step is not one by which a callback unwinds. -/
def Effect.IsSteady (rest : List Frame) (effect : Effect) : Prop :=
  inCallback rest = true → ∀ message, effect.control ≠ .unwind message

theorem Effect.IsSteady.free {message : String} (steady : effect.IsSteady rest)
    (unwinds : effect.control = .unwind message) : inCallback rest = false := by
  cases inside : inCallback rest with
  | false => rfl
  | true => exact absurd unwinds (steady inside message)

/-- A frame that no procedure of the manager waits for may reply and unwind as it likes. -/
theorem Effect.Performs.plain (ready : Ready m self w (frame :: rest)) (plain : frame.isPlain = true)
    (ground : Ground m rest) (steady : effect.IsSteady rest)
    (agrees : w.Agrees m effect.world) (silent : Silent m effect.notes)
    (done : (∃ value, effect.control = .reply value) ∨
      ∃ message, effect.control = .unwind message) :
    effect.Performs m self w frame rest .nothing := by
  refine .calm ready agrees silent ?_
  rcases done with ⟨value, control⟩ | ⟨message, control⟩
  · rw [control]
    exact ready.sound.replied_plain plain value
  · rw [control]
    refine ready.sound.unwound ground (steady.free control) ?_ ?_ ?_ message <;>
      cases frame <;> first | rfl | simp [Frame.isPlain] at plain

theorem Op.performs {op : Op} (ready : Ready m self w (.start op :: rest))
    (single : op.calls? = none ∨ op.calls? = some m)
    (callbacks : inCallback rest = true → op.calls? = none)
    (stays : op = .leave m → rest.any (·.isPausing) = true → rest.any (·.isPhases) = true)
    (steady : effect.IsSteady rest) (step : op.advance self w = some effect) :
    effect.Performs m self w (.start op) rest .nothing := by
  have ground : Ground m rest := ready.sound.1
  have done (agrees : w.Agrees m effect.world) (silent : Silent m effect.notes)
      (control : (∃ value, effect.control = .reply value) ∨
        ∃ message, effect.control = .unwind message) :
      effect.Performs m self w (.start op) rest .nothing :=
    .plain ready rfl ground steady agrees silent control
  have unchanged := World.Agrees.refl (m := m) w
  have goto {frame : Frame} (fits : frame.Fits m self rest) (bound : frame.isBound m = false)
      (posture : frame.posture m (posture m rest) = posture m rest) (marks : frame.marks = false)
      (bond : frame.bond? = none) :
      Follows m self (.start op :: rest) ((Control.goto frame).stack rest) :=
    .goto ready.sound fits (ready.sound.2.1.exchange rfl bound) posture marks (.inl bond)
  have calls (called : op.calls? ≠ none) : Open m rest :=
    ground.resolve_right fun inside => called (callbacks inside)
  cases op with
  | access a =>
    obtain ⟨agrees, silent, control⟩ := Access.agrees (m := m) step
    exact done agrees silent control
  | log tag =>
    obtain rfl := Option.some.inj step
    exact done unchanged (by simp [Note.tellsOf]) (.inl ⟨_, rfl⟩)
  | seq | replicate | only | sleep | park =>
    obtain rfl := Option.some.inj step
    exact .calm ready unchanged (by simp) (goto ground rfl rfl rfl rfl)
  | unwind message =>
    obtain rfl := Option.some.inj step
    exact done unchanged (by simp) (.inr ⟨_, rfl⟩)
  | interrupt | wakeWaiters =>
    obtain rfl := Option.some.inj step
    exact .calm ready unchanged (by simp) (goto trivial rfl rfl rfl rfl)
  | phaserArrive | registryArrive =>
    obtain rfl := Option.some.inj step
    exact .calm ready unchanged (by simp)
      (goto trivial rfl (Frame.posture_arrival (by simp) _) rfl rfl)
  | register =>
    obtain rfl := Option.some.inj step
    exact .calm ready unchanged (by simp)
      (goto (by simpa [Frame.Fits] using ground) rfl (Frame.posture_enrolment (by simp) _) rfl rfl)
  | deregister =>
    obtain rfl := Option.some.inj step
    exact .calm ready unchanged (by simp)
      (goto (by simpa [Frame.Fits] using ground) rfl (Frame.posture_withdrawal (by simp) _) rfl rfl)
  | visit =>
    obtain rfl := Option.some.inj step
    exact .calm ready unchanged (by simp)
      (goto (by simpa [Frame.Fits] using ground) rfl rfl rfl rfl)
  | enter n | enterWith n =>
    obtain rfl := Option.some.inj step
    obtain rfl : n = m := by simpa [calls?] using single
    have calls : Open _ (.discard :: rest) := (calls (by simp [calls?])).cons rfl rfl rfl
    exact .calm ready unchanged (by simp)
      (.call ready.sound ⟨rfl, calls.imp id (⟨rfl, ·⟩), by simp⟩ rfl ground
        (ready.sound.2.1.exchange rfl rfl) rfl rfl rfl (.inl rfl))
  | leave n =>
    obtain rfl := Option.some.inj step
    obtain rfl : n = m := by simpa [calls?] using single
    have calls := calls (by simp [calls?])
    exact .calm ready unchanged (by simp)
      (goto ⟨rfl, calls.imp id (⟨rfl, ·⟩), (ready.sound.unbound · (stays rfl))⟩ rfl rfl rfl rfl)
  | poll n | pollFree n =>
    obtain rfl := Option.some.inj step
    obtain rfl : n = m := by simpa [calls?] using single
    have calls := calls (by simp [calls?])
    exact .calm ready unchanged (by simp)
      (goto ⟨rfl, calls.imp id (⟨rfl, ·⟩)⟩ rfl rfl rfl rfl)
  | pause n | pauseWith n =>
    obtain rfl := Option.some.inj step
    obtain rfl : n = m := by simpa [calls?] using single
    have calls := calls (by simp [calls?])
    exact .calm ready unchanged (by simp)
      (goto ⟨rfl, by simp, calls.imp id (⟨rfl, ·⟩)⟩ rfl rfl rfl rfl)
  | acquire n | runBlocking n =>
    obtain rfl := Option.some.inj step
    obtain rfl : n = m := by simpa [calls?] using single
    exact .calm ready unchanged (by simp)
      (goto ⟨rfl, calls (by simp [calls?])⟩ rfl rfl rfl rfl)
  | pauseForeign n =>
    obtain rfl := Option.some.inj step
    obtain rfl : n = m := by simpa [calls?] using single
    exact .calm ready unchanged (by simp)
      (goto ⟨rfl, calls (by simp [calls?]), by simp, by simp⟩ rfl rfl rfl rfl)
  | release n =>
    obtain ⟨⟨v, notes⟩, leaves, replies⟩ := Option.bind_eq_some_iff.mp step
    obtain rfl := Option.some.inj replies
    obtain ⟨agrees, silent⟩ := World.Agrees.leaveGlobal (m := m) leaves
    exact done agrees silent (.inl ⟨_, rfl⟩)
  | defer thread tag script =>
    obtain rfl := Option.some.inj step
    exact done (.modifyRecord w _ _) (by simp [Note.tellsOf]) (.inl ⟨_, rfl⟩)
  | blockOn thread tag script =>
    obtain rfl := Option.some.inj step
    exact done (.blockOn w _ tag script) (by simp) (.inl ⟨_, rfl⟩)
  | deferLookup n thread tag script =>
    simp only [advance] at step
    split at step <;> obtain rfl := Option.some.inj step
    · exact done unchanged (by simp) (.inl ⟨_, rfl⟩)
    · exact done (.modifyRecord w _ _) (by simp [Note.tellsOf]) (.inl ⟨_, rfl⟩)
  | globalEnter l owner =>
    obtain rfl := Option.some.inj step
    have grounded : Ground m (.answer .nothing :: rest) := ground.cons rfl rfl rfl
    exact .calm ready unchanged (by simp)
      (.call ready.sound (by simpa [Frame.Fits, Acquisition.begin] using grounded)
        (by simp [Frame.Awaits, Frame.isBound, Acquisition.begin]) ground
        (ready.sound.2.1.exchange rfl rfl)
        (Frame.posture_acquisition (by simp [Acquisition.begin]) _) rfl rfl (.inl rfl))
  | globalEnterInterruptibly l owner interrupter =>
    obtain rfl := Option.some.inj step
    exact .calm ready unchanged (by simp)
      (goto (by simpa [Frame.Fits, Acquisition.begin] using ground) rfl
        (Frame.posture_acquisition (by simp [Acquisition.begin]) _) rfl rfl)
  | lock l | lockInterruptibly l =>
    obtain rfl := Option.some.inj step
    have grounded (reply : Reply) : Ground m (.keepGuard l reply :: rest) :=
      ground.cons rfl rfl rfl
    exact .calm ready unchanged (by simp)
      (.call ready.sound (by simpa [Frame.Fits, Acquisition.begin] using grounded _)
        (by simp [Frame.Awaits, Frame.isBound, Acquisition.begin]) ground
        (ready.sound.2.1.exchange rfl rfl)
        (Frame.posture_acquisition (by simp [Acquisition.begin]) _) rfl rfl (.inl rfl))
  | unlock l =>
    simp only [advance] at step
    split at step <;> obtain rfl := Option.some.inj step
    · have grounded : Ground m (.answer (.truth true) :: rest) := ground.cons rfl rfl rfl
      exact .calm ready ⟨rfl, fun _ => rfl, fun _ => rfl⟩ (by simp)
        (.call ready.sound (by simpa [Frame.Fits] using grounded) rfl ground
          (ready.sound.2.1.exchange rfl rfl) (Frame.posture_release (by simp) _) rfl rfl (.inl rfl))
    · exact done unchanged (by simp) (.inl ⟨_, rfl⟩)

theorem Acquisition.performs_other {a : Acquisition} (ready : Ready m self w (.acquisition a :: rest))
    (other : a.lock ≠ .pause m) (step : a.advance self w = some effect) :
    effect.Performs m self w (.acquisition a) rest .nothing := by
  have ground : Ground m rest := by simpa [Frame.Fits, other] using ready.sound.1
  have modify (v : World) (f : OwnedLock → OwnedLock) : v.Agrees m (v.modifyLock a.lock f) :=
    .modifyLock v _ (absurd · other)
  have goto {a' : Acquisition} (lock : a'.lock = a.lock) (patience : a'.patience = a.patience) :
      Follows m self (.acquisition a :: rest) ((Control.goto (.acquisition a')).stack rest) := by
    have other' : a'.lock ≠ .pause m := lock ▸ other
    refine .goto ready.sound (by simpa [Frame.Fits, other'] using ground) ?_ ?_ rfl (.inl rfl)
    · refine ready.sound.2.1.alike (fun parent below => ?_) (by simp [Frame.isBound, lock])
      cases parent <;> simp [Frame.Awaits, Frame.isBound, lock, patience]
    · rw [Frame.posture_acquisition other, Frame.posture_acquisition other']
  have reply (value : Reply) :
      Follows m self (.acquisition a :: rest) ((Control.reply value).stack rest) := by
    refine ready.sound.replied (Frame.posture_acquisition other _) rfl fun _ awaited => ⟨?_, ?_, ?_⟩
    · intro p same
      subst same
      exact absurd awaited.2 other
    · intro e same
      subst same
      exact absurd awaited.2.1 other
    · intro f same
      subst same
      exact awaited.elim
  have took (step : a.took w = some effect) :
      effect.Performs m self w (.acquisition a) rest .nothing := by
    simp only [Acquisition.took] at step
    split at step <;> obtain rfl := Option.some.inj step
    · exact .calm ready (modify w _) (by simp [Note.tellsOf, other]) (reply _)
    · exact .calm ready (modify w _) (by simp [Note.tellsOf, other]) (goto rfl rfl)
  simp only [Acquisition.advance] at step
  split at step
  · split at step
    · split at step
      · exact took step
      · obtain rfl := Option.some.inj step
        exact .calm ready (modify w _) (by simp) (goto rfl rfl)
    · simp at step
  · obtain rfl := Option.some.inj step
    exact .calm ready (.modifyInterrupter w _ _) (by simp) (goto rfl rfl)
  · split at step
    · split at step
      · exact took step
      · obtain rfl := Option.some.inj step
        exact .calm ready (modify w _) (by simp) (goto rfl rfl)
    · simp at step
  · split at step <;> obtain rfl := Option.some.inj step
    · exact .calm ready ((World.Agrees.modifyInterrupter w _ _).trans (modify _ _)) (by simp) (goto rfl rfl)
    · exact .calm ready (.refl w) (by simp) (goto rfl rfl)
  · split at step <;> obtain rfl := Option.some.inj step
    · exact .calm ready (modify w _) (by simp) (goto rfl rfl)
    · exact .calm ready (.refl w) (by simp) (goto rfl rfl)
  · obtain rfl := Option.some.inj step
    exact .calm ready (modify w _) (by simp) (goto rfl rfl)
  · obtain rfl := Option.some.inj step
    exact .calm ready (.modifyInterrupter w _ _) (by simp) (reply _)
  · simp at step

theorem Release.performs_other {lock : LockRef} {point : Release.Point}
    (ready : Ready m self w (.release lock point :: rest)) (other : lock ≠ .pause m)
    (step : Release.advance lock point w = some effect) :
    effect.Performs m self w (.release lock point) rest .nothing := by
  have ground : Ground m rest := by simpa [Frame.Fits, other] using ready.sound.1
  cases point with
  | clear =>
    simp only [Release.advance] at step
    split at step
    · obtain rfl := Option.some.inj step
      refine .calm ready (.modifyLock w _ (absurd · other)) (by simp [Note.tellsOf, other])
        (.goto ready.sound (by simpa [Frame.Fits, other] using ground) ?_ ?_ rfl (.inl rfl))
      · exact ready.sound.2.1.alike (fun _ _ => id) rfl
      · rw [Frame.posture_release other, Frame.posture_release other]
    · simp at step
  | notify =>
    obtain rfl := Option.some.inj step
    refine .calm ready (.modifyLock w _ (absurd · other)) (by simp [Note.tellsOf])
      (ready.sound.replied (Frame.posture_release other _) rfl fun _ awaited => ⟨?_, ?_, ?_⟩)
    · simp
    · simp
    · intro f same
      subst same
      exact awaited.elim

theorem OwnedLock.performsNotify {lock : LockRef} (ready : Ready m self w (.notify lock :: rest))
    (step : OwnedLock.advanceNotify lock w = some effect) :
    effect.Performs m self w (.notify lock) rest .nothing := by
  simp only [OwnedLock.advanceNotify] at step
  split at step
  · obtain rfl := Option.some.inj step
    refine .calm ready (.modifyLock w _ fun _ => rfl) (by simp [Note.tellsOf])
      (ready.sound.replied rfl rfl fun _ awaited => ⟨by simp, by simp, ?_⟩)
    intro f same
    subst same
    exact awaited.elim
  · simp at step

theorem Arrival.performs_other {a : Arrival} (ready : Ready m self w (.arrival a :: rest))
    (other : a.phaser ≠ .registry (.manager m)) (step : a.advance w = some effect) :
    effect.Performs m self w (.arrival a) rest .nothing := by
  have reply (value : Nat) :
      Follows m self (.arrival a :: rest) ((Control.reply (.count value)).stack rest) :=
    ready.sound.replied (Frame.posture_arrival other _) rfl fun _ _ => ⟨by simp, by simp, by simp⟩
  have set (value : Phaser) : w.Agrees m (w.setPhaser a.phaser value) := .setPhaser w value other
  simp only [Arrival.advance] at step
  split at step
  · split at step <;> obtain rfl := Option.some.inj step
    · exact .calm ready (set _) (by simp [Note.tellsOf, other]) (reply _)
    · refine .calm ready (set _) (by simp [Note.tellsOf, other])
        (.goto ready.sound trivial ?_ ?_ rfl (.inl rfl))
      · exact ready.sound.2.1.alike (fun _ _ => id) rfl
      · rw [Frame.posture_arrival other, Frame.posture_arrival]
        exact other
  · split at step
    · simp at step
    · obtain rfl := Option.some.inj step
      exact .calm ready (.refl w) (by simp) (reply _)

theorem Interruption.performs {i : Interruption} (ready : Ready m self w (.interruption i :: rest))
    (step : i.advance w = some effect) :
    effect.Performs m self w (.interruption i) rest .nothing := by
  have stands (i' : Interruption) : (Frame.interruption i').Awaited m rest :=
    ready.sound.2.1.alike (fun _ _ => id) rfl
  have goto (i' : Interruption) :
      Follows m self (.interruption i :: rest) ((Control.goto (.interruption i')).stack rest) :=
    .goto ready.sound trivial (stands i') rfl rfl (.inl rfl)
  simp only [Interruption.advance] at step
  split at step
  · obtain rfl := Option.some.inj step
    exact .calm ready (.modifyInterrupter w _ _) (by simp [Note.tellsOf]) (goto _)
  · split at step <;> obtain rfl := Option.some.inj step
    · exact .calm ready (.refl w) (by simp) (goto _)
    · exact .calm ready (.refl w) (by simp)
        (.call ready.sound trivial rfl trivial (stands _) rfl rfl rfl (.inl rfl))
    · exact .calm ready (.refl w) (by simp [Note.tellsOf])
        (.call ready.sound (.inr (by simp [Frame.isInterruption])) rfl trivial (stands _) rfl rfl rfl
          (.inl rfl))
  · obtain rfl := Option.some.inj step
    refine .calm ready (.modifyInterrupter w _ _) (by simp)
      (ready.sound.replied rfl rfl fun _ awaited => ⟨by simp, by simp, ?_⟩)
    intro f same
    subst same
    exact awaited.elim

theorem Sleeping.performs {s : Sleeping} (ready : Ready m self w (.sleeping s :: rest))
    (steady : effect.IsSteady rest) (step : s.advance self w = some effect) :
    effect.Performs m self w (.sleeping s) rest .nothing := by
  have ground : Ground m rest := ready.sound.1
  have goto (s' : Sleeping) :
      Follows m self (.sleeping s :: rest) ((Control.goto (.sleeping s')).stack rest) :=
    .goto ready.sound ground (ready.sound.2.1.exchange rfl rfl) rfl rfl (.inl rfl)
  have unchanged := World.Agrees.refl (m := m) w
  have done (agrees : w.Agrees m effect.world) (silent : Silent m effect.notes)
      (control : (∃ value, effect.control = .reply value) ∨
        ∃ message, effect.control = .unwind message) :
      effect.Performs m self w (.sleeping s) rest .nothing :=
    .plain ready rfl ground steady agrees silent control
  have checked := World.Agrees.checkInterrupt (m := m) w self
  simp only [Sleeping.advance] at step
  split at step
  · split at step <;> obtain rfl := Option.some.inj step
    · exact .calm ready unchanged (by simp) (goto _)
    · exact done unchanged (by simp) (.inr ⟨_, rfl⟩)
  · split at step <;> rename_i same <;> rw [same] at checked <;> obtain rfl := Option.some.inj step
    · exact .calm ready checked (by simp) (goto _)
    · exact done checked (by simp) (.inl ⟨_, rfl⟩)
  · split at step <;> obtain rfl := Option.some.inj step
    · exact done unchanged (by simp) (.inl ⟨_, rfl⟩)
    · exact .calm ready unchanged (by simp) (goto _)
  · split at step
    · obtain rfl := Option.some.inj step
      exact .calm ready (.modifyInterrupter w _ _) (by simp) (goto _)
    · split at step
      · obtain rfl := Option.some.inj step
        exact .calm ready unchanged (by simp) (goto _)
      · simp at step

theorem Parking.performs {point : Parking.Point} (ready : Ready m self w (.parking point :: rest))
    (steady : effect.IsSteady rest) (step : Parking.advance point self w = some effect) :
    effect.Performs m self w (.parking point) rest .nothing := by
  have ground : Ground m rest := ready.sound.1
  have goto (point' : Parking.Point) :
      Follows m self (.parking point :: rest) ((Control.goto (.parking point')).stack rest) :=
    .goto ready.sound ground (ready.sound.2.1.exchange rfl rfl) rfl rfl (.inl rfl)
  have done (agrees : w.Agrees m effect.world) (silent : Silent m effect.notes)
      (control : (∃ value, effect.control = .reply value) ∨
        ∃ message, effect.control = .unwind message) :
      effect.Performs m self w (.parking point) rest .nothing :=
    .plain ready rfl ground steady agrees silent control
  have checked := World.Agrees.checkInterrupt (m := m) w self
  cases point with
  | check =>
    simp only [Parking.advance] at step
    split at step <;> rename_i same <;> rw [same] at checked <;> obtain rfl := Option.some.inj step
    · exact .calm ready checked (by simp) (goto _)
    · exact done checked (by simp) (.inl ⟨_, rfl⟩)
  | parked =>
    simp only [Parking.advance] at step
    split at step
    · obtain rfl := Option.some.inj step
      exact .calm ready (.modifyInterrupter w _ _) (by simp) (goto _)
    · simp at step
  | recheck =>
    obtain rfl := Option.some.inj step
    exact done checked (by simp) (.inl ⟨_, rfl⟩)

theorem Enrolment.performs_other {e : Enrolment} (ready : Ready m self w (.enrolment e :: rest))
    (other : e.registry ≠ .manager m) (step : e.advance w = some effect) :
    effect.Performs m self w (.enrolment e) rest .nothing := by
  have ground : Ground m rest := by simpa [Frame.Fits, other] using ready.sound.1
  have modify (f : Registry → Registry) : w.Agrees m (w.modifyRegistry e.registry f) :=
    .modifyRegistry w _ (absurd · other) (absurd · other)
  have reply (value : Reply) :
      Follows m self (.enrolment e :: rest) ((Control.reply value).stack rest) := by
    refine ready.sound.replied (Frame.posture_enrolment other _) rfl fun _ awaited => ⟨?_, ?_, ?_⟩
    · intro p same
      subst same
      exact awaited.elim
    · intro _ same
      subst same
      exact absurd awaited.2 other
    · intro f same
      subst same
      exact awaited.elim
  simp only [Enrolment.advance] at step
  split at step
  · split at step
    · simp at step
    · split at step <;> obtain rfl := Option.some.inj step
      · exact .calm ready (.refl w) (by simp) (reply _)
      · refine .calm ready (modify _) (by simp [Note.tellsOf, other])
          (.goto ready.sound (by simpa [Frame.Fits, other] using ground) ?_ ?_ rfl (.inl rfl))
        · exact ready.sound.2.1.alike (fun _ _ => id) rfl
        · rw [Frame.posture_enrolment other, Frame.posture_enrolment]
          exact other
  · obtain rfl := Option.some.inj step
    exact .calm ready (modify _) (by simp [Note.tellsOf, other]) (reply _)

theorem Withdrawal.performs_other {x : Withdrawal} (ready : Ready m self w (.withdrawal x :: rest))
    (steady : effect.IsSteady rest) (other : x.registry ≠ .manager m)
    (step : x.advance w = some effect) :
    effect.Performs m self w (.withdrawal x) rest .nothing := by
  have ground : Ground m rest := by simpa [Frame.Fits, other] using ready.sound.1
  have reply (entry : Option RegistrationView) :
      Follows m self (.withdrawal x :: rest)
        ((Control.reply (.registration entry)).stack rest) :=
    ready.sound.replied (Frame.posture_withdrawal other _) rfl fun _ _ =>
      ⟨by simp, by simp, by simp⟩
  simp only [Withdrawal.advance] at step
  split at step
  · split at step
    · simp at step
    · split at step <;> obtain rfl := Option.some.inj step
      · exact .calm ready (.refl w) (by simp) (reply _)
      · refine .calm ready (.modifyRegistry w _ (absurd · other) (absurd · other))
          (by simp [Note.tellsOf, other])
          (.goto ready.sound (by simpa [Frame.Fits, other] using ground) ?_ ?_ rfl (.inl rfl))
        · exact ready.sound.2.1.alike (fun _ _ => id) rfl
        · rw [Frame.posture_withdrawal other, Frame.posture_withdrawal]
          exact other
  · split at step
    · obtain rfl := Option.some.inj step
      exact .calm ready (.refl w) (by simp)
        (ready.sound.unwound ground (steady.free rfl) (Frame.posture_withdrawal other _) rfl rfl _)
    · rename_i departs
      obtain rfl := Option.some.inj step
      have other : PhaserRef.registry x.registry ≠ .registry (.manager m) := by simpa using other
      obtain ⟨agrees, silent⟩ := World.Agrees.depart other departs
      exact .calm ready agrees silent (reply _)

theorem Visit.performs {v : Visit} (ready : Ready m self w (.visit v :: rest))
    (step : v.advance w = some effect) :
    effect.Performs m self w (.visit v) rest .nothing := by
  obtain ⟨present, ground⟩ := ready.sound.1
  have stands (v' : Visit) (same : v'.registry = v.registry) :
      (Frame.visit v').Awaited m rest :=
    ready.sound.2.1.alike
      (fun parent _ => by cases parent <;> simp [Frame.Awaits, Frame.isBound, same])
      (by simp [Frame.isBound, same])
  have goto (v' : Visit) (same : v'.registry = v.registry)
      (present : ∀ identity message, v'.point ≠ .abandon identity message) :
      Follows m self (.visit v :: rest) ((Control.goto (.visit v')).stack rest) :=
    .goto ready.sound ⟨present, by rw [same]; exact ground⟩ (stands v' same) rfl rfl (.inl rfl)
  simp only [Visit.advance] at step
  split at step
  · obtain rfl := Option.some.inj step
    exact .calm ready (.refl w) (by simp) (goto _ rfl (by simp))
  · obtain rfl := Option.some.inj step
    refine .calm ready (.refl w) (by simp)
      (ready.sound.replied rfl rfl fun _ awaited => ⟨by simp, by simp, ?_⟩)
    intro f same
    subst same
    exact awaited.elim
  · split at step
    · split at step <;> obtain rfl := Option.some.inj step
      · exact .calm ready (.modifyRegistry w _ (fun _ => rfl) fun _ => rfl) (by simp)
          (.call ready.sound trivial ⟨_, rfl⟩ ⟨by simp, ground⟩ (stands _ rfl) rfl rfl rfl
            (.inl rfl))
      · exact .calm ready (.refl w) (by simp) (goto _ rfl present)
    · obtain rfl := Option.some.inj step
      exact .calm ready (.refl w) (by simp) (goto _ rfl present)
  · obtain rfl := Option.some.inj step
    exact .calm ready (.modifyRegistry w _ (fun _ => rfl) fun _ => rfl) (by simp)
      (goto _ rfl (by simp))
  · rename_i abandoned
    exact absurd abandoned (present _ _)

theorem Script.performs {s : Script} (ready : Ready m self w (.script s :: rest))
    (step : s.advance self w = some effect) :
    effect.Performs m self w (.script s) rest .nothing := by
  have ground : Ground m rest := ready.sound.1
  have stands (s' : Script) : (Frame.script s').Awaited m rest :=
    ready.sound.2.1.alike (fun _ _ => id) rfl
  have goto (s' : Script) :
      Follows m self (.script s :: rest) ((Control.goto (.script s')).stack rest) :=
    .goto ready.sound ground (stands s') rfl rfl (.inl rfl)
  simp only [Script.advance] at step
  split at step
  · obtain rfl := Option.some.inj step
    refine .calm ready (.refl w) ?_ (goto _)
    split <;> simp [Note.tellsOf]
  · obtain rfl := Option.some.inj step
    exact .calm ready (.refl w) (by simp)
      (ready.sound.replied rfl rfl fun _ _ => ⟨by simp, by simp, by simp⟩)
  · split at step <;> obtain rfl := Option.some.inj step
    · exact .calm ready (.refl w) (by simp) (goto _)
    · exact .calm ready (.refl w) (by simp)
        (.call ready.sound (ground.cons rfl rfl rfl) rfl ground (stands _) rfl rfl rfl (.inl rfl))

theorem Sequence.performs {s : Sequence} (ready : Ready m self w (.sequence s :: rest))
    (step : s.advance w = some effect) :
    effect.Performs m self w (.sequence s) rest .nothing := by
  have ground : Ground m rest := ready.sound.1
  simp only [Sequence.advance] at step
  split at step <;> obtain rfl := Option.some.inj step
  · exact .calm ready (.refl w) (by simp) (ready.sound.replied_plain rfl _)
  · exact .calm ready (.refl w) (by simp)
      (.call ready.sound (ground.cons rfl rfl rfl) rfl ground (ready.sound.2.1.exchange rfl rfl) rfl
        rfl rfl (.inl rfl))

theorem Drain.performs {d : Drain} (ready : Ready m self w (.drain d :: rest))
    (step : d.advance w = some effect) :
    effect.Performs m self w (.drain d) rest .nothing := by
  have ground : Ground m rest := ready.sound.1
  have stands (d' : Drain) : (Frame.drain d').Awaited m rest :=
    ready.sound.2.1.alike (fun _ _ => id) rfl
  simp only [Drain.advance] at step
  split at step <;> obtain rfl := Option.some.inj step
  · exact .calm ready (.modifyRecord w _ _) (by simp [Note.tellsOf])
      (.goto ready.sound ground (stands _) rfl rfl (.inl rfl))
  · exact .calm ready (.refl w) (by simp)
      (ready.sound.replied rfl rfl fun _ _ => ⟨by simp, by simp, by simp⟩)
  · exact .calm ready (.refl w) (by simp [Note.tellsOf])
      (.call ready.sound (ground.cons rfl rfl rfl) rfl ground (stands _) rfl rfl rfl (.inl rfl))

theorem Trial.performs {t : Trial} (ready : Ready m self w (.trial t :: rest))
    (steady : effect.IsSteady rest) (step : t.advance self w = some effect) :
    effect.Performs m self w (.trial t) rest .nothing := by
  have ground : Ground m rest := ready.sound.1
  have stands (t' : Trial) : (Frame.trial t').Awaited m rest := ready.sound.2.1.exchange rfl rfl
  have goto (t' : Trial) :
      Follows m self (.trial t :: rest) ((Control.goto (.trial t')).stack rest) :=
    .goto ready.sound ground (stands t') rfl rfl (.inl rfl)
  have word (text : String) : Ground m (.word text :: rest) := ground.cons rfl rfl rfl
  have stands' (text : String) : (Frame.word text).Awaited m rest :=
    ready.sound.2.1.exchange rfl rfl
  have unchanged := World.Agrees.refl (m := m) w
  have done (agrees : w.Agrees m effect.world) (silent : Silent m effect.notes)
      (control : (∃ value, effect.control = .reply value) ∨
        ∃ message, effect.control = .unwind message) :
      effect.Performs m self w (.trial t) rest .nothing :=
    .plain ready rfl ground steady agrees silent control
  have checked := World.Agrees.checkInterrupt (m := m) w self
  simp only [Trial.advance] at step
  split at step
  · obtain rfl := Option.some.inj step
    exact .calm ready unchanged (by simp [Note.tellsOf]) (goto _)
  · split at step
    · obtain rfl := Option.some.inj step
      exact done unchanged (by simp) (.inl ⟨_, rfl⟩)
    · obtain rfl := Option.some.inj step
      exact .calm ready unchanged (by simp)
        (.call ready.sound (word _) rfl ground (stands' _) rfl rfl rfl (.inl rfl))
    · obtain rfl := Option.some.inj step
      exact .calm ready unchanged (by simp)
        (.call ready.sound (word _) rfl ground (stands' _) rfl rfl rfl (.inl rfl))
    · obtain rfl := Option.some.inj step
      exact .calm ready unchanged (by simp)
        (.call ready.sound (word _) rfl ground (stands' _) rfl rfl rfl (.inl rfl))
    · obtain rfl := Option.some.inj step
      exact .calm ready unchanged (by simp)
        (.call ready.sound trivial rfl ground (stands _) rfl rfl rfl (.inl rfl))
    · obtain rfl := Option.some.inj step
      exact done unchanged (by simp) (.inr ⟨_, rfl⟩)
    all_goals
      split at step <;> obtain rfl := Option.some.inj step
      · exact done unchanged (by simp) (.inl ⟨_, rfl⟩)
      · exact .calm ready unchanged (by simp) (goto _)
  · split at step <;> rename_i same <;> rw [same] at checked <;> obtain rfl := Option.some.inj step
    · exact done checked (by simp) (.inl ⟨_, rfl⟩)
    · exact done checked (by simp) (.inl ⟨_, rfl⟩)

theorem performs_answer {reply : Reply} (ready : Ready m self w (.answer reply :: rest)) :
    (Effect.mk w (.reply reply) []).Performs m self w (.answer reply) rest .nothing := by
  refine .calm ready (.refl w) (by simp)
    (ready.sound.replied rfl rfl fun _ awaited => ⟨?_, ?_, ?_⟩)
  · intro p same
    subst same
    exact awaited.elim
  · intro e same
    subst same
    exact awaited.elim
  · rintro f rfl pause yes
    rcases awaited with leave | ⟨-, unbound⟩
    · simp [leave] at pause
    · exact unbound yes

end

end StopTheWorld
