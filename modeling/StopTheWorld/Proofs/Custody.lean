import StopTheWorld.Proofs.Lodging
import StopTheWorld.Proofs.Locks

namespace StopTheWorld

/-! Who owns the global lock while pauses come and go. Each procedure of the manager has the lock at
some of its points and not at others, whatever other threads do meanwhile, and leaves its caller with
it or without it as it found it. -/

/-- Whether the caller of an operation is to own the global lock, where it matters. -/
def Op.claims? : Op → Option Bool
  | poll _ | pause _ _ => some true
  | pollFree _ | pauseForeign _ _ | leave _ | acquire _ => some false
  | pauseWith _ holds _ | runBlocking _ holds _ => some holds
  | _ => none

/-- The global lock that an operation takes or gives back, and on whose behalf. -/
def Op.handles? (self : ThreadId) (w : World) : Op → Option (GlobalId × ThreadId)
  | access (.globalTryEnter l owner) | access (.globalLeave l owner) | globalEnter l owner
  | globalEnterInterruptibly l owner _ => some (l, owner.getD self)
  | release n => some ((w.manager n).globalLock, self)
  | _ => none

/-- The global lock that a step can take or give back, and on whose behalf. -/
def Frame.handles? (self : ThreadId) (w : World) : Frame → Option (GlobalId × ThreadId)
  | start op => op.handles? self w
  | acquisition a =>
    match a.lock with
    | .global lock => some (lock, a.owner)
    | _ => none
  | release (.global lock) _ => some (lock, self)
  | frame => frame.gives? self w

def Frame.isScript : Frame → Bool
  | script _ => true
  | _ => false

/-- The thread owns the global lock. -/
def World.holds (g : GlobalId) (w : World) (thread : ThreadId) : Bool :=
  (w.lock (.global g)).isHeldBy thread

/-- The step that a thread is about to take is one of user code that tells the manager the truth about
the global lock, and whose pause actions, deferred actions and callbacks leave both alone. -/
structure Truthful (m : ManagerId) (w : World) (thread : ThreadId) : Prop where
  /-- There is no other manager. -/
  single : ∀ {op rest}, w.stack thread = .start op :: rest → op.calls? = none ∨ op.calls? = some m
  claims : ∀ {op rest holds}, w.stack thread = .start op :: rest → op.claims? = some holds →
    w.holds (w.manager m).globalLock thread = holds
  apart : ∀ {op rest}, w.stack thread = .start op :: rest → rest.any (·.isScript) = true →
    op.calls? = none ∧ ∀ owner, op.handles? thread w ≠ some ((w.manager m).globalLock, owner)
  /-- Callbacks and deferred actions do not unwind. -/
  steady : ∀ {frame rest effect}, w.stack thread = frame :: rest → isAside rest = true →
    frame.advance thread w = some effect → ∀ message, effect.control ≠ .unwind message

/-- Besides, it takes and gives back the global lock on its own behalf only. -/
structure Faithful (m : ManagerId) (w : World) (thread : ThreadId) : Prop
    extends Truthful m w thread where
  behalf : ∀ {op rest owner}, w.stack thread = .start op :: rest →
    op.handles? thread w = some ((w.manager m).globalLock, owner) → owner = thread

def Polling.Point.isAway : Polling.Point → Bool
  | enterPhases | exitPhases => true
  | _ => false

/-- The driver has given the global lock up, if it had it, and has not taken it again. -/
def Pausing.Point.isAway : Pausing.Point → Bool
  | enterPhases | exitPhases | clear | account | unlock | announceEnd | resume => true
  | _ => false

/-- What a frame has to do with the lock, if the thread owns it as `holds` tells: what it is to be at
this point of the procedure, and what is to be so of those below when that is done. Where a procedure
is called by user code only, it is all the same to those below. -/
def Frame.Holds (g : GlobalId) (self : ThreadId) (rest : List Frame) (below : Bool → Prop)
    (holds : Bool) : Frame → Prop
  | polling p =>
    holds = (p.holdsGlobal && !p.point.isAway) ∧ rest.any (·.isScript) = false ∧ below p.holdsGlobal
  | pausing p =>
    holds = (p.holdsGlobal && !p.point.isAway) ∧ rest.any (·.isScript) = false ∧ below p.holdsGlobal
  | resuming r =>
    holds = (r.holdsGlobal && !decide (r.point = .reacquire)) ∧ rest.any (·.isScript) = false ∧
      below r.holdsGlobal
  | phases _ | leaving _ | foreign _ => holds = false ∧ rest.any (·.isScript) = false ∧ below false
  | acquiring a =>
    holds = decide (a.point = .done) ∧ rest.any (·.isScript) = false ∧ ∀ later, below later
  | blocking b =>
    holds = (b.holdsGlobal && decide (b.point = .release)) ∧ rest.any (·.isScript) = false ∧
      ∀ later, below later
  | acquisition a =>
    if a.lock = .global g then
      a.owner = self ∧ rest.any (·.isScript) = false ∧
        match rest with
        | resuming _ :: _ => a.patience = .uninterruptible ∧ holds = false ∧ below true
        | acquiring _ :: _ => holds = decide (a.point = .restore true) ∧ below true
        | _ => ∀ later, below later
    else (∀ a' below', rest ≠ acquiring a' :: below') ∧ below holds
  | release lock _ => lock ≠ .global g ∧ below holds
  | start _ | sequence _ => below holds ∧ (rest.any (·.isScript) = false → ∀ later, below later)
  | _ => below holds

/-- `Custody g self final stack holds`: if the thread owns the lock as `holds` tells, then that is as
the procedures on its stack have it, and what is final is so once they all are done. -/
def Custody (g : GlobalId) (self : ThreadId) (final : Bool → Prop) : List Frame → Bool → Prop
  | [] => final
  | frame :: rest => fun holds => frame.Holds g self rest (Custody g self final rest) holds

/-- A failure from above changes nothing of what the frame has to do with the lock. -/
def Frame.endures : Frame → Bool
  | acquiring _ => false
  | pausing p => !p.point.isAway
  | _ => true

/-- The frame has nothing to do with global locks, whatever it comes to. -/
def Frame.isBystander : Frame → Bool
  | answer _ | discard | word _ | rethrow _ | keepGuard _ _ | notify _ | arrival _ | interruption _
  | sleeping _ | parking _ | enrolment _ | withdrawal _ | visit _ | script _ | drain _ | trial _
  | entering _ => true
  | _ => false

/-- What the frame replies is never a failure. -/
def Frame.succeedsAlways : Frame → Bool
  | polling _ | resuming _ | phases _ | release _ _ => true
  | _ => false

/-- Nothing unwinds out of the frame. -/
def Frame.isTight : Frame → Bool
  | phases _ | arrival _ | release _ _ => true
  | _ => false

section

variable {m : ManagerId} {g : GlobalId} {self thread : ThreadId} {final : Bool → Prop}
  {w v : World} {frame parent : Frame} {rest base above : List Frame} {effect : Effect}
  {holds : Bool} {notes : List Note}

theorem Frame.handles_of_gives {given : GlobalId × ThreadId}
    (gives : frame.gives? self w = some given) : frame.handles? self w = some given := by
  cases frame with
  | start op =>
    cases op with
    | access access => cases access <;> first | exact gives | simp [gives?] at gives
    | _ => first | exact gives | simp [gives?] at gives
  | polling | pausing | blocking => exact gives
  | _ => simp [gives?] at gives

/-- A step that does not handle the lock leaves it with whoever owns it. -/
theorem Frame.holds_of_step (step : frame.advance self w = some effect)
    (other : ∀ owner, frame.handles? self w ≠ some (g, owner)) :
    effect.world.holds g thread = w.holds g thread := by
  have handles : effect.Handles (.global g) self w frame := Frame.handles step
  cases handles with
  | keeps same | enters _ _ _ _ _ same | exits _ _ _ same | awaits _ _ _ _ same | notifies same =>
    rw [World.holds, same]
    rfl
  | @takes a top own =>
    subst top
    exact absurd (by simp [handles?, own]) (other a.owner)
  | tries top own =>
    cases own
    subst top
    exact absurd rfl (other _)
  | clears top =>
    subst top
    exact absurd rfl (other self)
  | leaves own _ gives =>
    cases own
    exact absurd (Frame.handles_of_gives gives) (other _)

/-- A step on its own behalf does not make another thread own the lock, nor lose it. -/
theorem Frame.holds_other (step : frame.advance self w = some effect)
    (behalf : ∀ owner, frame.handles? self w = some (g, owner) → owner = self)
    (keeps : frame ≠ .release (.global g) .clear) (other : thread ≠ self) :
    effect.world.holds g thread = w.holds g thread := by
  have taken (free : (w.lock (.global g)).IsFree) (owner : ThreadId) (own : owner = self) :
      ((w.lock (.global g)).take owner).isHeldBy thread = (w.lock (.global g)).isHeldBy thread := by
    subst own
    simp [OwnedLock.isHeldBy, show (w.lock (.global g)).owner = none from free, Ne.symm other]
  have handles : effect.Handles (.global g) self w frame := Frame.handles step
  cases handles with
  | keeps same | enters _ _ _ _ _ same | exits _ _ _ same | awaits _ _ _ _ same | notifies same =>
    rw [World.holds, same]
    rfl
  | @takes a top own _ _ free same =>
    subst top
    rw [World.holds, same]
    exact taken free a.owner (behalf _ (by simp [handles?, own]))
  | tries top own _ free same =>
    cases own
    subst top
    rw [World.holds, same]
    exact taken free _ (behalf _ rfl)
  | clears top => exact absurd top keeps
  | leaves own _ gives same =>
    cases own
    obtain rfl := behalf _ (Frame.handles_of_gives gives)
    rw [World.holds, same, OwnedLock.leave]
    split
    · rename_i owned
      simp [World.holds, OwnedLock.isHeldBy, OwnedLock.clear, OwnedLock.notify, owned, Ne.symm other]
    · rfl

theorem World.holds_leaveGlobal (leaves : w.leaveGlobal g self = some (v, notes)) :
    v.holds g self = false := by
  simp only [leaveGlobal] at leaves
  split at leaves
  · obtain ⟨rfl, -⟩ := Prod.mk.inj (Option.some.inj leaves)
    rw [holds, lock_modifyLock, if_pos rfl, OwnedLock.leave]
    split
    · simp [OwnedLock.isHeldBy, OwnedLock.clear, OwnedLock.notify]
    · rename_i foreign
      simpa [OwnedLock.isHeldBy] using foreign
  · simp at leaves

namespace Custody

theorem of_bystander (bystander : frame.isBystander = true) :
    Custody g self final (frame :: rest) holds ↔ Custody g self final rest holds := by
  cases frame <;> first | exact Iff.rfl | simp [Frame.isBystander] at bystander

theorem of_acquisition {a : Acquisition} (other : a.lock ≠ .global g) :
    Custody g self final (.acquisition a :: rest) holds ↔
      (∀ a' below, rest ≠ .acquiring a' :: below) ∧ Custody g self final rest holds := by
  show (if a.lock = .global g then _ else _) ↔ _
  rw [if_neg other]

/-- What is replied changes nothing, unless it is a failure that matters. -/
theorem reply {value : Reply} (custody : Custody g self final rest holds)
    (calm : (∀ failure, value ≠ .failed failure) ∨ rest.head?.all (·.endures) = true) :
    Custody g self final ((Control.reply value).stack rest) holds := by
  cases rest with
  | nil => exact custody
  | cons parent below =>
    show Custody g self final (parent.resume value :: below) holds
    unfold Frame.resume
    split <;> first
      | exact custody
      | (split <;> first
          | exact custody
          | (obtain ⟨rfl, -, beneath⟩ := custody
             exact beneath))
      | (have endures := calm.resolve_left fun whole => whole _ rfl
         simp only [List.head?_cons, Option.all_some, Frame.endures, Bool.not_eq_true'] at endures
         obtain ⟨now, beneath⟩ := custody
         rw [endures] at now
         exact ⟨now, beneath⟩)
      | (have endures := calm.resolve_left fun whole => whole _ rfl
         simp [Frame.endures] at endures)

/-- A frame that catches an unwinding has as much to do with the lock as before. -/
theorem caught {message : String} {handler : Frame} (caught : parent.catch? message = some handler)
    (custody : Custody g self final (parent :: rest) holds) :
    Custody g self final (handler :: rest) holds := by
  unfold Frame.catch? at caught
  repeat' split at caught
  all_goals first
    | (obtain rfl := Option.some.inj caught
       first
         | exact custody
         | (obtain ⟨rfl, beneath⟩ := custody
            exact ⟨by simp [*, Pausing.Point.isAway], beneath⟩))
    | simp at caught

/-- What unwinds out of a procedure leaves its caller with the lock or without it, as it is to be. -/
theorem dropped {message : String} {below : List Frame} (awaits : parent.Awaits m frame below)
    (loose : frame.isTight = false) (dropped : parent.catch? message = none)
    (custody : Custody g self final (parent :: rest) holds) :
    parent.isTight = false ∧ Custody g self final rest holds := by
  cases parent with
  | phases p =>
    cases frame with
    | script => simp [Frame.catch?, show p.point = .third from awaits] at dropped
    | arrival => simp [Frame.isTight] at loose
    | _ => exact awaits.elim
  | polling p =>
    cases frame with
    | phases => simp [Frame.isTight] at loose
    | _ => exact awaits.elim
  | pausing p =>
    obtain ⟨rfl, -, beneath⟩ := custody
    refine ⟨rfl, ?_⟩
    have here : p.point.isAway = false := by
      cases frame with
      | phases | release => simp [Frame.isTight] at loose
      | polling | resuming | visit => simp [show p.point = _ from awaits, Pausing.Point.isAway]
      | acquisition a => simp [awaits.1, Pausing.Point.isAway]
      | notify => obtain point | point := awaits <;> simp [point, Pausing.Point.isAway]
      | _ => exact awaits.elim
    simpa [here] using beneath
  | resuming r =>
    obtain ⟨rfl, -, beneath⟩ := custody
    refine ⟨rfl, ?_⟩
    have here : r.point ≠ .reacquire := by
      cases frame with
      | acquisition => simp [awaits.1]
      | drain => simp [show r.point = _ from awaits]
      | _ => exact awaits.elim
    simpa [here] using beneath
  | leaving | foreign =>
    obtain ⟨rfl, -, beneath⟩ := custody
    exact ⟨rfl, beneath⟩
  | acquiring | blocking => exact ⟨rfl, custody.2.2 _⟩
  | sequence => exact ⟨rfl, custody.1⟩
  | start | acquisition | release | arrival => exact awaits.elim
  | _ => exact ⟨rfl, custody⟩

theorem unwind {message : String} (sound : Sound m self (frame :: (above ++ base)))
    (loose : frame.isTight = false) (custody : Custody g self final above holds) :
    Custody g self final (Frame.unwind message above) holds := by
  induction above generalizing frame with
  | nil => exact custody
  | cons parent below ih =>
    unfold Frame.unwind
    split
    · exact custody.caught ‹_›
    · obtain ⟨loose, beneath⟩ := dropped sound.2.1 loose ‹_› custody
      exact ih sound.tail loose beneath

theorem of_taking {a : Acquisition} (own : a.lock = .global g) :
    Custody g self final (.acquisition a :: rest) holds ↔
      a.owner = self ∧ rest.any (·.isScript) = false ∧
        match rest with
        | .resuming _ :: _ =>
          a.patience = .uninterruptible ∧ holds = false ∧ Custody g self final rest true
        | .acquiring _ :: _ =>
          holds = decide (a.point = .restore true) ∧ Custody g self final rest true
        | _ => ∀ later, Custody g self final rest later := by
  show (if a.lock = .global g then _ else _) ↔ _
  rw [if_pos own]

end Custody

/-- What stands on a frame that a failure would matter to does not fail. -/
theorem Sound.endures (sound : Sound m self (frame :: (above ++ base)))
    (laid : Laid (frame :: (above ++ base))) (fails : frame.succeedsAlways = false)
    (other : ∀ a b below, frame = .acquisition a → above ≠ .acquiring b :: below) :
    above.head?.all (·.endures) = true := by
  cases above with
  | nil => rfl
  | cons parent below =>
    have awaits : parent.Awaits m frame (below ++ base) := sound.2.1
    have hosts : parent.hosts frame = true := laid.1
    cases parent with
    | acquiring b =>
      cases frame with
      | acquisition a => exact absurd rfl (other a b below rfl)
      | polling | resuming => simp [Frame.succeedsAlways] at fails
      | _ => simp [Frame.hosts] at hosts
    | pausing p =>
      have here : p.point.isAway = false := by
        cases frame with
        | polling | resuming | phases | release => simp [Frame.succeedsAlways] at fails
        | visit => simp [show p.point = _ from awaits, Pausing.Point.isAway]
        | acquisition a => simp [awaits.1, Pausing.Point.isAway]
        | notify => obtain point | point := awaits <;> simp [point, Pausing.Point.isAway]
        | _ => exact awaits.elim
      simp [Frame.endures, here]
    | _ => rfl

theorem Op.custody {op : Op} (sound : Sound m self (.start op :: (above ++ base)))
    (laid : Laid (.start op :: (above ++ base)))
    (claims : ∀ held, op.claims? = some held → w.holds g self = held)
    (apart : above.any (·.isScript) = true →
      op.calls? = none ∧ ∀ owner, op.handles? self w ≠ some (g, owner))
    (behalf : ∀ owner, op.handles? self w = some (g, owner) → owner = self)
    (custody : Custody g self final (.start op :: above) (w.holds g self))
    (step : op.advance self w = some effect) :
    Custody g self final (effect.control.stack above) (effect.world.holds g self) := by
  obtain ⟨beneath, free⟩ := custody
  have calm : above.head?.all (·.endures) = true := sound.endures laid rfl (by simp)
  have top : (Frame.start op).advance self w = some effect := step
  have beneath : Custody g self final above (effect.world.holds g self) := by
    cases script : above.any (·.isScript) with
    | false => exact free script _
    | true => rwa [Frame.holds_of_step top (apart script).2]
  have bare (calls : op.calls? ≠ none) : above.any (·.isScript) = false :=
    Bool.eq_false_of_not_eq_true fun script => calls (apart script).1
  have alone (owner : ThreadId) (handles : op.handles? self w = some (g, owner)) :
      above.any (·.isScript) = false :=
    Bool.eq_false_of_not_eq_true fun script => (apart script).2 owner handles
  cases op with
  | access a =>
    obtain ⟨-, -, ⟨value, control⟩ | ⟨message, control⟩⟩ := Access.agrees (m := m) step <;>
      rw [control]
    · exact beneath.reply (.inr calm)
    · exact beneath.unwind sound rfl
  | unwind message =>
    obtain rfl := Option.some.inj step
    exact beneath.unwind sound rfl
  | release n =>
    obtain ⟨v, notes, leaves, rfl⟩ := World.leaves_of_bind step
    exact beneath.reply (.inr calm)
  | deferLookup =>
    simp only [advance] at step
    split at step <;> obtain rfl := Option.some.inj step <;> exact beneath.reply (.inr calm)
  | unlock l =>
    simp only [advance] at step
    split at step <;> obtain rfl := Option.some.inj step
    · exact ⟨by simp, beneath⟩
    · exact beneath.reply (.inr calm)
  | poll | pollFree | leave | pause | pauseForeign =>
    obtain rfl := Option.some.inj step
    exact ⟨claims _ rfl, bare (by simp [calls?]), free (bare (by simp [calls?])) _⟩
  | pauseWith =>
    obtain rfl := Option.some.inj step
    exact ⟨by simp [claims _ rfl, Pausing.Point.isAway], bare (by simp [calls?]),
      free (bare (by simp [calls?])) _⟩
  | acquire =>
    obtain rfl := Option.some.inj step
    exact ⟨claims _ rfl, bare (by simp [calls?]), free (bare (by simp [calls?]))⟩
  | runBlocking =>
    obtain rfl := Option.some.inj step
    exact ⟨by simp [claims _ rfl], bare (by simp [calls?]), free (bare (by simp [calls?]))⟩
  | globalEnter l owner =>
    obtain rfl := Option.some.inj step
    by_cases same : l = g
    · subst same
      exact (Custody.of_taking rfl).mpr ⟨behalf _ rfl, alone _ rfl, free (alone _ rfl)⟩
    · exact (Custody.of_acquisition (by simp [Acquisition.begin, same])).mpr ⟨by simp, beneath⟩
  | globalEnterInterruptibly l owner interrupter =>
    obtain rfl := Option.some.inj step
    have outside (parent : Frame) (below : List Frame) (same : above = parent :: below) :
        parent.hosts (.start (.globalEnterInterruptibly l owner interrupter)) = true := by
      subst same
      exact laid.1
    by_cases same : l = g
    · subst same
      refine (Custody.of_taking rfl).mpr ⟨behalf _ rfl, alone _ rfl, ?_⟩
      split
      · simpa [Frame.hosts] using outside _ _ rfl
      · simpa [Frame.hosts] using outside _ _ rfl
      · exact free (alone _ rfl)
    · refine (Custody.of_acquisition (by simp [Acquisition.begin, same])).mpr ⟨?_, beneath⟩
      exact fun a below same => by simpa [Frame.hosts] using outside _ _ same
  | lock | lockInterruptibly =>
    obtain rfl := Option.some.inj step
    exact (Custody.of_acquisition (by simp [Acquisition.begin])).mpr ⟨by simp, beneath⟩
  | seq | replicate | only =>
    obtain rfl := Option.some.inj step
    exact ⟨beneath, free⟩
  | _ =>
    obtain rfl := Option.some.inj step
    first
      | exact beneath
      | exact beneath.reply (.inr calm)

/-- The acquisition is one for the same as another. -/
structure Acquisition.IsFor (a' a : Acquisition) : Prop where
  lock : a'.lock = a.lock
  owner : a'.owner = a.owner
  patience : a'.patience = a.patience

/-- What a step of taking a lock comes to, for a thread that has it before and after as told. -/
inductive Acquisition.Comes (a : Acquisition) (before after : Bool) : Control → Prop
  | goes {a' : Acquisition} (same : a'.IsFor a) (early : a.point ≠ .restore true)
      (still : a'.point ≠ .restore true) (kept : after = before) :
      Comes a before after (.goto (.acquisition a'))
  | takes {a' : Acquisition} (same : a'.IsFor a) (patience : a.patience ≠ .uninterruptible)
      (point : a'.point = .restore true) (took : after = true) :
      Comes a before after (.goto (.acquisition a'))
  | gets (took : after = true) : Comes a before after (.reply (.succeeded .nothing))
  | returns {acquired : Bool} (patience : a.patience ≠ .uninterruptible)
      (point : a.point = .restore acquired) (kept : after = before) :
      Comes a before after
        (.reply (if acquired then .succeeded .nothing else .failed .interrupted))

theorem Acquisition.Goes.comes {a : Acquisition} (goes : a.Goes self w effect)
    (own : a.lock = .global g) (mine : a.owner = self) :
    a.Comes (w.holds g self) (effect.world.holds g self) effect.control := by
  have kept (u : World) (f : OwnedLock → OwnedLock) (owner : ∀ lock, (f lock).owner = lock.owner) :
      (u.modifyLock a.lock f).holds g self = u.holds g self := by
    simp [World.holds, World.lock_modifyLock, own, OwnedLock.isHeldBy, owner]
  have untouched (target : ThreadId) (f : Interrupter Wake → Interrupter Wake) :
      (w.modifyInterrupter target f).holds g self = w.holds g self := by
    simp [World.holds]
  cases goes with
  | installs _ point =>
    exact .goes ⟨rfl, rfl, rfl⟩ (by simp [point]) (by simp) (untouched _ _)
  | takes point _ _ _ done =>
    have took : (w.modifyLock a.lock (·.take a.owner)).holds g self = true := by
      simp [World.holds, World.lock_modifyLock, own, mine, OwnedLock.isHeldBy]
    obtain ⟨-, rfl⟩ | ⟨patience, rfl⟩ := done
    · exact .gets took
    · exact .takes ⟨rfl, rfl, rfl⟩ patience rfl took
  | sleeps _ point =>
    exact .goes ⟨rfl, rfl, rfl⟩ (by simp [point]) (by simp [point]) (kept w _ fun _ => rfl)
  | obeys _ point =>
    exact .goes ⟨rfl, rfl, rfl⟩ (by simp [point]) (by simp)
      ((kept _ (·.exit) fun _ => rfl).trans (untouched _ _))
  | looks _ point | stays _ point =>
    exact .goes ⟨rfl, rfl, rfl⟩ (by simp [point]) (by simp) rfl
  | enters _ point | yields _ point | awaits _ point =>
    exact .goes ⟨rfl, rfl, rfl⟩ (by simp [point]) (by simp) (kept w _ fun _ => rfl)
  | restores patience point => exact .returns (by simp [patience]) point (untouched _ _)

/-- The steps of taking the global lock: whoever comes back from a pause has it in the end, whoever
asks the manager for it knows whether it has, and to anybody else it is all the same. -/
theorem Acquisition.Comes.custody {a : Acquisition} (own : a.lock = .global g)
    (sound : Sound m self (.acquisition a :: (above ++ base)))
    (laid : Laid (.acquisition a :: (above ++ base)))
    (custody : Custody g self final (.acquisition a :: above) holds) {control : Control}
    {later : Bool} (comes : a.Comes holds later control) :
    Custody g self final (control.stack above) later := by
  obtain ⟨mine, bare, shape⟩ := (Custody.of_taking own).mp custody
  split at shape
  · obtain ⟨patience, rfl, beneath⟩ := shape
    cases comes with
    | goes same _ _ kept =>
      exact (Custody.of_taking (same.lock.trans own)).mpr
        ⟨same.owner.trans mine, bare, same.patience.trans patience, kept, beneath⟩
    | takes _ other => exact absurd patience other
    | gets now => exact now ▸ beneath.reply (.inl (by simp))
    | returns other => exact absurd patience other
  · obtain ⟨now, beneath⟩ := shape
    cases comes with
    | goes same before after kept =>
      refine (Custody.of_taking (same.lock.trans own)).mpr
        ⟨same.owner.trans mine, bare, ?_, beneath⟩
      simp [kept, now, before, after]
    | takes same _ point took =>
      refine (Custody.of_taking (same.lock.trans own)).mpr
        ⟨same.owner.trans mine, bare, ?_, beneath⟩
      simp [took, point]
    | gets now => exact now ▸ beneath.reply (.inl (by simp))
    | @returns acquired _ point kept =>
      subst kept
      cases acquired with
      | true =>
        rw [point, decide_eq_true rfl] at now
        subst now
        exact beneath.reply (.inl (by simp))
      | false => exact ⟨by simpa [point] using now, beneath.2⟩
  · rename_i alone apart
    have calm : above.head?.all (·.endures) = true :=
      sound.endures laid rfl fun _ b below _ => apart b below
    have on {a' : Acquisition} (same : a'.IsFor a) :
        Custody g self final (.acquisition a' :: above) later := by
      refine (Custody.of_taking (same.lock.trans own)).mpr ⟨same.owner.trans mine, bare, ?_⟩
      split
      · exact absurd rfl (alone _ _)
      · exact absurd rfl (apart _ _)
      · exact shape
    cases comes with
    | goes same | takes same => exact on same
    | gets | returns => exact (shape _).reply (.inr calm)

theorem Acquisition.custody {a : Acquisition}
    (sound : Sound m self (.acquisition a :: (above ++ base)))
    (laid : Laid (.acquisition a :: (above ++ base)))
    (custody : Custody g self final (.acquisition a :: above) (w.holds g self))
    (step : a.advance self w = some effect) :
    Custody g self final (effect.control.stack above) (effect.world.holds g self) := by
  have top : (Frame.acquisition a).advance self w = some effect := step
  by_cases own : a.lock = .global g
  · exact ((goes step).comes own ((Custody.of_taking own).mp custody).1).custody own sound laid custody
  obtain ⟨outside, beneath⟩ := (Custody.of_acquisition own).mp custody
  have calm : above.head?.all (·.endures) = true :=
    sound.endures laid rfl fun _ b below _ => outside b below
  have kept : effect.world.holds g self = w.holds g self := by
    refine Frame.holds_of_step top fun owner handles => own ?_
    simp only [Frame.handles?] at handles
    split at handles
    · rename_i lock
      rw [lock, (Prod.mk.inj (Option.some.inj handles)).1]
    · simp at handles
  have on {a' : Acquisition} (same : a'.lock = a.lock) :
      Custody g self final (.acquisition a' :: above) (w.holds g self) :=
    (Custody.of_acquisition (same ▸ own)).mpr ⟨outside, beneath⟩
  rw [kept]
  cases Acquisition.goes step with
  | takes _ _ _ _ done =>
    obtain ⟨-, rfl⟩ | ⟨-, rfl⟩ := done
    · exact beneath.reply (.inr calm)
    · exact on rfl
  | restores => exact beneath.reply (.inr calm)
  | _ => exact on rfl

theorem Polling.custody {p : Polling} (manager : p.manager = m)
    (lock : (w.manager m).globalLock = g)
    (custody : Custody g self final (.polling p :: above) (w.holds g self))
    (step : p.advance self w = some effect) :
    Custody g self final (effect.control.stack above) (effect.world.holds g self) := by
  have top : (Frame.polling p).advance self w = some effect := step
  obtain ⟨now, bare, beneath⟩ := custody
  by_cases leaves : p.point = .leaveGlobal
  · simp only [advance, leaves] at step
    obtain ⟨v, notes, leaves, rfl⟩ := World.leaves_of_bind step
    rw [manager, lock] at leaves
    exact ⟨by simp [World.holds_leaveGlobal leaves, Point.isAway], bare, beneath⟩
  have kept : effect.world.holds g self = w.holds g self :=
    Frame.holds_of_step top (by simp [Frame.handles?, Frame.gives?, leaves])
  rw [kept, now]
  have nothing (away : p.point.isAway = false) : Custody g self final
      ((Control.reply .nothing).stack above) (p.holdsGlobal && !p.point.isAway) :=
    Custody.reply (by simpa [away] using beneath) (.inl (by simp))
  cases point : p.point with
  | leaveGlobal => exact absurd point leaves
  | check =>
    simp only [advance, point] at step
    split at step <;> obtain rfl := Option.some.inj step
    · exact point ▸ nothing (by rw [point]; rfl)
    · exact ⟨rfl, bare, beneath⟩
  | count =>
    simp only [advance, point] at step
    obtain rfl := Option.some.inj step
    exact ⟨rfl, bare, beneath⟩
  | lookup =>
    simp only [advance, point] at step
    split at step <;> obtain rfl := Option.some.inj step
    · exact point ▸ nothing (by rw [point]; rfl)
    · refine ⟨?_, bare, beneath⟩
      cases p.holdsGlobal <;> rfl
  | enterPhases =>
    simp only [advance, point] at step
    obtain rfl := Option.some.inj step
    have away : (p.holdsGlobal && !Point.isAway .enterPhases) = false := by simp [Point.isAway]
    exact ⟨away, by simpa [Frame.isScript] using bare, by simp [Point.isAway], bare, beneath⟩
  | exitPhases =>
    simp only [advance, point] at step
    obtain rfl := Option.some.inj step
    exact ⟨by simp [Point.isAway], bare, beneath⟩

theorem Resuming.custody {r : Resuming} (manager : r.manager = m)
    (lock : (w.manager m).globalLock = g)
    (sound : Sound m self (.resuming r :: (above ++ base)))
    (custody : Custody g self final (.resuming r :: above) (w.holds g self))
    (step : r.advance self w = some effect) :
    Custody g self final (effect.control.stack above) (effect.world.holds g self) := by
  have top : (Frame.resuming r).advance self w = some effect := step
  obtain ⟨now, bare, beneath⟩ := custody
  have kept : effect.world.holds g self = w.holds g self :=
    Frame.holds_of_step top (by simp [Frame.handles?, Frame.gives?])
  rw [kept, now]
  cases point : r.point with
  | reacquire =>
    simp only [advance, point] at step
    rw [point] at now
    split at step <;> rename_i had <;> obtain rfl := Option.some.inj step
    · refine (Custody.of_taking (by rw [← lock, ← manager]; rfl)).mpr
        ⟨rfl, bare, rfl, by simp, ?_, bare, beneath⟩
      simp [had]
    · exact ⟨by simp [had], bare, beneath⟩
  | settle =>
    simp only [advance, point] at step
    have beneath : Custody g self final above (r.holdsGlobal && !decide (Point.settle = .reacquire)) :=
      by simpa using beneath
    split at step <;> obtain rfl := Option.some.inj step
    · exact beneath.unwind sound rfl
    · exact beneath.reply (.inl (by simp))
    · exact ⟨rfl, bare, by simpa using beneath⟩
  | drained =>
    simp only [advance, point] at step
    have beneath : Custody g self final above (r.holdsGlobal && !decide (Point.drained = .reacquire)) :=
      by simpa using beneath
    obtain rfl := Option.some.inj step
    exact beneath.reply (.inl (by simp))

theorem Phases.custody {p : Phases}
    (custody : Custody g self final (.phases p :: above) (w.holds g self))
    (step : p.advance w = some effect) :
    Custody g self final (effect.control.stack above) (effect.world.holds g self) := by
  have top : (Frame.phases p).advance self w = some effect := step
  have kept : effect.world.holds g self = w.holds g self :=
    Frame.holds_of_step top (by simp [Frame.handles?, Frame.gives?])
  rw [kept]
  have done : Custody g self final above (w.holds g self) := by
    obtain ⟨now, -, beneath⟩ := custody
    rwa [now]
  simp only [advance] at step
  repeat' split at step
  all_goals obtain rfl := Option.some.inj step
  case h_6 =>
    refine done.reply (.inl fun failure => ?_)
    cases p.outcome <;> simp
  all_goals exact custody

theorem Pausing.custody {p : Pausing} (manager : p.manager = m)
    (lock : (w.manager m).globalLock = g)
    (calm : above.head?.all (·.endures) = true)
    (custody : Custody g self final (.pausing p :: above) (w.holds g self))
    (step : p.advance self w = some effect) :
    Custody g self final (effect.control.stack above) (effect.world.holds g self) := by
  have top : (Frame.pausing p).advance self w = some effect := step
  obtain ⟨now, bare, beneath⟩ := custody
  by_cases leaves : p.point = .leaveGlobal ∧ p.holdsGlobal = true
  · rw [leaves.2] at beneath
    simp only [advance, leaves, if_true] at step
    obtain ⟨v, notes, leaves, rfl⟩ := World.leaves_of_bind step
    rw [manager, lock] at leaves
    exact ⟨by simp [World.holds_leaveGlobal leaves, Point.isAway], bare, beneath⟩
  have kept : effect.world.holds g self = w.holds g self :=
    Frame.holds_of_step top (by simp [Frame.handles?, Frame.gives?, leaves])
  rw [kept, now]
  cases point : p.point with
  | gate | lookup =>
    simp only [advance, point] at step
    split at step <;> obtain rfl := Option.some.inj step
    · exact Custody.reply (by simpa [Point.isAway] using beneath) (.inr calm)
    · exact ⟨rfl, bare, beneath⟩
  | lock =>
    simp only [advance, point] at step
    obtain rfl := Option.some.inj step
    exact (Custody.of_acquisition (by simp [Acquisition.begin])).mpr ⟨by simp, rfl, bare, beneath⟩
  | poll =>
    simp only [advance, point] at step
    obtain rfl := Option.some.inj step
    exact ⟨rfl, bare, by simp [Point.isAway], bare, beneath⟩
  | leaveGlobal =>
    have none : p.holdsGlobal = false := by simpa [point] using leaves
    rw [none] at beneath
    simp only [advance, point, none] at step
    obtain rfl := Option.some.inj step
    exact ⟨by simp [none], bare, beneath⟩
  | wakeWaiters =>
    simp only [advance, point] at step
    obtain rfl := Option.some.inj step
    refine ⟨?_, bare, beneath⟩
    dsimp only
    split <;> rfl
  | enterPhases =>
    simp only [advance, point] at step
    obtain rfl := Option.some.inj step
    exact ⟨by simp [Point.isAway], bare, by simp [Point.isAway], bare, beneath⟩
  | unlock =>
    simp only [advance, point] at step
    obtain rfl := Option.some.inj step
    exact ⟨by simp, rfl, bare, beneath⟩
  | abandon =>
    simp only [advance, point] at step
    obtain rfl := Option.some.inj step
    exact ⟨by simp, (by simpa [Point.isAway] using beneath : Custody g self final above _)⟩
  | resume =>
    simp only [advance, point] at step
    obtain rfl := Option.some.inj step
    exact ⟨by simp [Point.isAway], bare, beneath⟩
  | _ =>
    simp only [advance, point] at step
    obtain rfl := Option.some.inj step
    exact ⟨rfl, bare, beneath⟩

theorem Foreign.custody {f : Foreign} (calm : above.head?.all (·.endures) = true)
    (custody : Custody g self final (.foreign f :: above) (w.holds g self))
    (step : f.advance w = some effect) :
    Custody g self final (effect.control.stack above) (effect.world.holds g self) := by
  have top : (Frame.foreign f).advance self w = some effect := step
  have kept : effect.world.holds g self = w.holds g self :=
    Frame.holds_of_step top (by simp [Frame.handles?, Frame.gives?])
  rw [kept]
  obtain ⟨now, bare, beneath⟩ := custody
  rw [now]
  cases point : f.point <;> simp only [advance, point] at step
  case leave =>
    split at step <;> obtain rfl := Option.some.inj step
    · exact ⟨rfl, bare, beneath⟩
    · exact beneath.reply (.inr calm)
  all_goals obtain rfl := Option.some.inj step
  case pause => exact ⟨rfl, bare, rfl, bare, beneath⟩
  case abandon => exact ⟨rfl, bare, beneath⟩
  case register => exact ⟨rfl, bare, beneath⟩

theorem Leaving.custody {l : Leaving} (calm : above.head?.all (·.endures) = true)
    (custody : Custody g self final (.leaving l :: above) (w.holds g self))
    (step : l.advance self w = some effect) :
    Custody g self final (effect.control.stack above) (effect.world.holds g self) := by
  have top : (Frame.leaving l).advance self w = some effect := step
  have kept : effect.world.holds g self = w.holds g self :=
    Frame.holds_of_step top (by simp [Frame.handles?, Frame.gives?])
  rw [kept]
  obtain ⟨now, bare, beneath⟩ := custody
  rw [now]
  simp only [advance] at step
  repeat' split at step
  all_goals
    obtain rfl := Option.some.inj step
    first
      | exact beneath.reply (.inr calm)
      | exact ⟨rfl, bare, beneath⟩
      | exact ⟨rfl, bare, rfl, bare, beneath⟩

theorem Acquiring.custody {a : Acquiring} (manager : a.manager = m)
    (lock : (w.manager m).globalLock = g)
    (calm : above.head?.all (·.endures) = true)
    (custody : Custody g self final (.acquiring a :: above) (w.holds g self))
    (step : a.advance self w = some effect) :
    Custody g self final (effect.control.stack above) (effect.world.holds g self) := by
  have top : (Frame.acquiring a).advance self w = some effect := step
  have kept : effect.world.holds g self = w.holds g self :=
    Frame.holds_of_step top (by simp [Frame.handles?, Frame.gives?])
  rw [kept]
  obtain ⟨now, bare, free⟩ := custody
  rw [now]
  cases point : a.point <;> simp only [advance, point] at step <;> obtain rfl := Option.some.inj step
  case enter =>
    refine (Custody.of_taking (by rw [← lock, ← manager]; rfl)).mpr ⟨rfl, bare, ?_, rfl, bare, free⟩
    simp only [Acquisition.begin]
    split <;> rfl
  case poll => exact ⟨rfl, bare, rfl, bare, free⟩
  case done => exact (free _).reply (.inr calm)

theorem Blocking.custody {b : Blocking} (manager : b.manager = m)
    (lock : (w.manager m).globalLock = g)
    (calm : above.head?.all (·.endures) = true)
    (custody : Custody g self final (.blocking b :: above) (w.holds g self))
    (step : b.advance self w = some effect) :
    Custody g self final (effect.control.stack above) (effect.world.holds g self) := by
  have top : (Frame.blocking b).advance self w = some effect := step
  obtain ⟨now, bare, free⟩ := custody
  by_cases leaves : b.point = .release ∧ b.holdsGlobal = true
  · simp only [advance, leaves, if_true] at step
    obtain ⟨v, notes, leaves, rfl⟩ := World.leaves_of_bind step
    rw [manager, lock] at leaves
    exact ⟨by simp [World.holds_leaveGlobal leaves], bare, free⟩
  have kept : effect.world.holds g self = w.holds g self :=
    Frame.holds_of_step top (by simp [Frame.handles?, Frame.gives?, leaves])
  have away : w.holds g self = false := by
    rw [now]
    simpa [and_comm] using leaves
  rw [kept, away]
  cases point : b.point with
  | release =>
    have none : b.holdsGlobal = false := by simpa [point] using leaves
    simp only [advance, point, none] at step
    obtain rfl := Option.some.inj step
    exact ⟨by simp, bare, free⟩
  | attempt =>
    simp only [advance, point] at step
    obtain rfl := Option.some.inj step
    exact ⟨by simp, bare, free⟩
  | judge =>
    simp only [advance, point] at step
    split at step <;> obtain rfl := Option.some.inj step
    · exact ⟨rfl, bare, by simp, bare, free⟩
    · exact ⟨by simp, bare, free⟩
  | reacquire =>
    simp only [advance, point] at step
    split at step <;> obtain rfl := Option.some.inj step
    · exact ⟨rfl, bare, free⟩
    · exact (free _).reply (.inr calm)

theorem Sequence.custody {s : Sequence} (calm : above.head?.all (·.endures) = true)
    (custody : Custody g self final (.sequence s :: above) (w.holds g self))
    (step : s.advance w = some effect) :
    Custody g self final (effect.control.stack above) (effect.world.holds g self) := by
  have top : (Frame.sequence s).advance self w = some effect := step
  have kept : effect.world.holds g self = w.holds g self :=
    Frame.holds_of_step top (by simp [Frame.handles?, Frame.gives?])
  rw [kept]
  obtain ⟨beneath, free⟩ := custody
  simp only [advance] at step
  split at step <;> obtain rfl := Option.some.inj step
  · exact beneath.reply (.inr calm)
  · exact ⟨⟨beneath, free⟩, fun bare later => ⟨free bare later, free⟩⟩

theorem Release.custody {lock : LockRef} {point : Release.Point}
    (custody : Custody g self final (.release lock point :: above) (w.holds g self))
    (step : advance lock point w = some effect) :
    Custody g self final (effect.control.stack above) (effect.world.holds g self) := by
  have top : (Frame.release lock point).advance self w = some effect := step
  obtain ⟨other, beneath⟩ := custody
  have kept : effect.world.holds g self = w.holds g self := by
    refine Frame.holds_of_step top fun owner handles => ?_
    cases lock with
    | «global» l => exact other (congrArg LockRef.global (Prod.mk.inj (Option.some.inj handles)).1)
    | _ => simp [Frame.handles?, Frame.gives?] at handles
  rw [kept]
  simp only [advance] at step
  repeat' split at step
  all_goals first
    | (obtain rfl := Option.some.inj step
       first
         | exact ⟨other, beneath⟩
         | exact beneath.reply (.inl (by simp)))
    | simp at step

/-- The steps that have nothing to do with global locks. -/
theorem Frame.custody_of_bystander (bystander : frame.isBystander = true)
    (sound : Sound m self (frame :: (above ++ base)))
    (calm : above.head?.all (·.endures) = true)
    (custody : Custody g self final (frame :: above) (w.holds g self))
    (step : frame.advance self w = some effect) :
    Custody g self final (effect.control.stack above) (effect.world.holds g self) := by
  have idle : frame.handles? self w = none := by
    cases frame <;> first | rfl | simp [isBystander] at bystander
  have kept : effect.world.holds g self = w.holds g self :=
    Frame.holds_of_step step (by simp [idle])
  have beneath := (Custody.of_bystander bystander).mp custody
  rw [kept]
  cases frame <;> first
    | simp [isBystander] at bystander; done
    | skip
  all_goals
    simp only [advance, OwnedLock.advanceNotify, Arrival.advance, Sleeping.advance, Parking.advance,
      Interruption.advance, Enrolment.advance, Withdrawal.advance, Visit.advance, Script.advance,
      Drain.advance, Entering.advance, Trial.advance] at step
    repeat' split at step
    all_goals first
      | (obtain rfl := Option.some.inj step
         first
           | exact beneath
           | exact beneath.reply (.inr calm)
           | exact beneath.unwind sound rfl
           | exact ⟨by simp, beneath⟩
           | exact ⟨beneath, fun bare => by simp [isScript] at bare⟩)
      | simp at step

/-- What a thread's own step makes of its ownership is as its procedures have it. -/
theorem Custody.step (custody : Custody g self final (frame :: above) (w.holds g self))
    (lock : (w.manager m).globalLock = g) (stack : w.stack self = frame :: rest)
    (parts : rest = above ++ base) (sound : Sound m self (w.stack self))
    (laid : Laid (w.stack self)) (faithful : Faithful m w self)
    (step : frame.advance self w = some effect) :
    Custody g self final (effect.control.stack above) (effect.world.holds g self) := by
  subst parts
  rw [stack] at sound laid
  have calm (fails : frame.succeedsAlways = false) (other : ∀ a, frame ≠ .acquisition a) :
      above.head?.all (·.endures) = true :=
    sound.endures laid fails fun a b below same => absurd same (other a)
  cases frame with
  | start op =>
    subst lock
    refine Op.custody sound laid (fun _ => faithful.claims stack) (fun script => ?_)
      (fun _ => faithful.behalf stack) custody step
    exact faithful.apart stack (by simp [script])
  | acquisition a => exact Acquisition.custody sound laid custody step
  | release => exact Release.custody custody step
  | phases => exact Phases.custody custody step
  | polling => exact Polling.custody sound.1.1 lock custody step
  | resuming => exact Resuming.custody sound.1.1 lock sound custody step
  | leaving => exact Leaving.custody (calm rfl (by simp)) custody step
  | pausing => exact Pausing.custody sound.1.1 lock (calm rfl (by simp)) custody step
  | foreign => exact Foreign.custody (calm rfl (by simp)) custody step
  | acquiring => exact Acquiring.custody sound.1.1 lock (calm rfl (by simp)) custody step
  | blocking => exact Blocking.custody sound.1.1 lock (calm rfl (by simp)) custody step
  | sequence => exact Sequence.custody (calm rfl (by simp)) custody step
  | _ => exact Frame.custody_of_bystander rfl sound (calm rfl (by simp)) custody step

end

end StopTheWorld
