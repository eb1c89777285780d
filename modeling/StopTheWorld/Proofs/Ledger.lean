import StopTheWorld.Proofs.Keys

namespace StopTheWorld

/-! The acquisitions and the releases of a lock, as they are observed. -/

/-- Whether the note is that the lock was taken or given back. -/
def Note.turns (ref : LockRef) : Note → Bool
  | took lock _ | cleared lock => lock = ref
  | _ => false

/-- `Ledger ref before notes after`: what was observed takes the lock only when it is free, and gives it
back only when it is taken; the owner is the one of the acquisition that has not been given back. -/
inductive Ledger (ref : LockRef) : Option ThreadId → List Note → Option ThreadId → Prop
  | nil (owner : Option ThreadId) : Ledger ref owner [] owner
  | skip {before after : Option ThreadId} {note : Note} {notes : List Note}
      (other : note.turns ref = false) (later : Ledger ref before notes after) :
      Ledger ref before (note :: notes) after
  | took {owner : ThreadId} {after : Option ThreadId} {notes : List Note}
      (later : Ledger ref (some owner) notes after) : Ledger ref none (.took ref owner :: notes) after
  | cleared {owner : ThreadId} {after : Option ThreadId} {notes : List Note}
      (later : Ledger ref none notes after) : Ledger ref (some owner) (.cleared ref :: notes) after

/-- Where the key to a lock is. -/
inductive KeyPlace
  | lock
  | user
  | thread (thread : ThreadId)
  deriving DecidableEq

/-- There is one key to the lock, and it is in the place. -/
structure World.KeyAt (ref : LockRef) (place : KeyPlace) (w : World) : Prop where
  threads : ∀ thread, keysOf ref (w.stack thread) = if place = .thread thread then 1 else 0
  kept : w.keysKept ref = if place = .user then 1 else 0
  owner : (w.lock ref).owner = none ↔ place = .lock

def World.IsKeyed (ref : LockRef) (w : World) : Prop := ∃ place, w.KeyAt ref place

/-- Nobody does anything, and nobody has taken a lock. -/
structure World.IsUnlocked (w : World) : Prop where
  idle : ∀ thread, w.stack thread = []
  guards : w.guards = []
  free : ∀ ref, (w.lock ref).IsFree

section

variable {ref : LockRef} {w v : World} {self : ThreadId} {frame : Frame} {rest : List Frame}
  {effect : Effect} {notes : List Note} {before after : Option ThreadId}

namespace Ledger

theorem append {middle : Option ThreadId} {later : List Note} (first : Ledger ref before notes middle)
    (second : Ledger ref middle later after) : Ledger ref before (notes ++ later) after := by
  induction first with
  | nil => exact second
  | skip other _ ih => exact .skip other (ih second)
  | took _ ih => exact .took (ih second)
  | cleared _ ih => exact .cleared (ih second)

theorem nil_eq (ledger : Ledger ref before [] after) : after = before := by
  cases ledger
  rfl

theorem quiet (quiet : ∀ note ∈ notes, note.turns ref = false) (same : after = before) :
    Ledger ref before notes after := by
  subst same
  induction notes with
  | nil => exact .nil after
  | cons note notes ih =>
    exact .skip (quiet note List.mem_cons_self) (ih fun other mem => quiet other (.tail _ mem))

end Ledger

theorem World.ledger_leaveGlobal {lock : GlobalId} {owner : ThreadId}
    (leaves : w.leaveGlobal lock owner = some (v, notes)) :
    Ledger ref (w.lock ref).owner notes (v.lock ref).owner := by
  simp only [leaveGlobal] at leaves
  split at leaves
  · obtain ⟨rfl, rfl⟩ := Prod.mk.inj (Option.some.inj leaves)
    by_cases own : ref = .global lock
    · subst own
      split
      · rename_i held
        rw [World.lock_modifyLock, if_pos rfl, held]
        simp only [OwnedLock.leave, held, if_true]
        exact .cleared (.skip rfl (.nil none))
      · rename_i held
        rw [World.lock_modifyLock, if_pos rfl, OwnedLock.leave_eq_self held]
        exact .skip rfl (.nil _)
    · rw [World.lock_modifyLock, if_neg own]
      refine .quiet (fun note mem => ?_) rfl
      split at mem <;> simp only [List.mem_cons, List.not_mem_nil, or_false] at mem
      · obtain rfl | rfl := mem
        · simpa [Note.turns] using Ne.symm own
        · rfl
      · subst mem
        rfl
  · simp at leaves

theorem World.owner_modifyLock (lock : LockRef) {f : OwnedLock → OwnedLock}
    (keeps : ∀ lock, (f lock).owner = lock.owner) :
    ((w.modifyLock lock f).lock ref).owner = (w.lock ref).owner := by
  rw [World.lock_modifyLock]
  split
  · rename_i same
    rw [keeps, same]
  · rfl

/-- Only taking and giving back changes the owner. -/
theorem Frame.owner_of_step (step : frame.advance self w = some effect)
    (waits : ∀ a, frame ≠ .acquisition a)
    (tries : ∀ lock owner, frame ≠ .start (.access (.globalTryEnter lock owner)))
    (gives : frame.gives? self w = none) (clears : frame.clears ref = false) :
    (effect.world.lock ref).owner = (w.lock ref).owner := by
  cases (Frame.handles step : effect.Handles ref self w _) with
  | keeps same => rw [same]
  | takes top | enters top | exits top | awaits top => exact absurd top (waits _)
  | tries top => exact absurd top (tries _ _)
  | clears top => simp [top, Frame.clears] at clears
  | notifies same => rw [same, OwnedLock.notify_owner]
  | leaves _ _ given => simp [given] at gives

theorem Acquisition.Goes.ledger {a : Acquisition} (goes : a.Goes self w effect) :
    Ledger ref (w.lock ref).owner effect.notes (effect.world.lock ref).owner := by
  cases goes with
  | takes _ _ _ free done =>
    by_cases own : a.lock = ref
    · subst own
      dsimp only
      rw [World.lock_modifyLock, if_pos rfl, free]
      exact .took (.nil _)
    · dsimp only
      rw [World.lock_modifyLock, if_neg (Ne.symm own)]
      exact .skip (by simpa [Note.turns] using own) (.nil _)
  | installs | restores => exact .quiet (by simp) (by rw [World.lock_modifyInterrupter])
  | looks | stays => exact .quiet (by simp) rfl
  | obeys =>
    refine .quiet (by simp) ?_
    dsimp only
    rw [World.owner_modifyLock a.lock (f := (·.exit)) fun _ => rfl, World.lock_modifyInterrupter]
  | sleeps | enters | yields | awaits => exact .quiet (by simp) (World.owner_modifyLock _ fun _ => rfl)

theorem World.turnless_depart {phaser : PhaserRef} {phase : Nat}
    (departs : w.depart phaser = .ok (v, phase, notes)) : ∀ note ∈ notes, note.turns ref = false := by
  unfold depart at departs
  dsimp only at departs
  split at departs
  · simp at departs
  · simp only [Except.ok.injEq, Prod.mk.injEq] at departs
    obtain ⟨-, -, rfl⟩ := departs
    split <;> simp [Note.turns]

theorem Op.quiet_of_step {op : Op} (step : op.advance self w = some effect)
    (tries : ∀ lock owner, op ≠ .access (.globalTryEnter lock owner))
    (gives : (Frame.start op).gives? self w = none) : ∀ note ∈ effect.notes, note.turns ref = false := by
  cases op with
  | access access =>
    cases access with
    | globalTryEnter lock owner => exact absurd rfl (tries lock owner)
    | globalLeave => simp [Frame.gives?] at gives
    | phaserDepart phaser =>
      simp only [advance, Access.advance] at step
      split at step <;> obtain rfl := Option.some.inj step
      · simp
      · exact World.turnless_depart ‹_›
    | unblock tag =>
      simp only [advance, Access.advance] at step
      split at step <;> obtain rfl := Option.some.inj step <;> simp
    | _ =>
      obtain rfl := Option.some.inj step
      simp [Note.turns]
  | release n => simp [Frame.gives?] at gives
  | deferLookup | unlock =>
    simp only [advance] at step
    split at step <;> obtain rfl := Option.some.inj step <;> simp [Note.turns]
  | _ =>
    obtain rfl := Option.some.inj step
    simp [Note.turns]

/-- Nothing else is observed of the lock. -/
theorem Frame.quiet_of_step (step : frame.advance self w = some effect)
    (waits : ∀ a, frame ≠ .acquisition a)
    (tries : ∀ lock owner, frame ≠ .start (.access (.globalTryEnter lock owner)))
    (gives : frame.gives? self w = none) (clears : frame.clears ref = false) :
    ∀ note ∈ effect.notes, note.turns ref = false := by
  cases frame with
  | acquisition a => exact absurd rfl (waits a)
  | start op => exact Op.quiet_of_step step (fun lock owner same => tries lock owner (by rw [same])) gives
  | release lock point =>
    cases point <;> simp only [advance, Release.advance] at step
    · split at step
      · obtain rfl := Option.some.inj step
        have other : lock ≠ ref := by simpa [Frame.clears] using clears
        simpa [Note.turns] using other
      · simp at step
    · obtain rfl := Option.some.inj step
      simp [Note.turns]
  | _ =>
    simp only [advance, OwnedLock.advanceNotify, Arrival.advance, Sleeping.advance,
      Parking.advance, Interruption.advance, Enrolment.advance, Withdrawal.advance, Visit.advance,
      Script.advance, Sequence.advance, Drain.advance, Phases.advance, Resuming.advance,
      Polling.advance, Entering.advance, Leaving.advance, Pausing.advance, Foreign.advance,
      Acquiring.advance, Blocking.advance, Trial.advance] at step
    repeat' split at step
    all_goals first
      | (obtain rfl := Option.some.inj step
         first
           | exact World.turnless_depart ‹_›
           | simp [Note.turns])
      | (obtain ⟨v, notes, leaves, rfl⟩ := World.leaves_of_bind step
         simp [gives?, *] at gives)
      | simp at step

/-- A step that gives a global lock back does that, on behalf of the one it is told. -/
theorem Frame.leaves_of_gives {lock : GlobalId} {owner : ThreadId}
    (step : frame.advance self w = some effect) (gives : frame.gives? self w = some (lock, owner)) :
    w.leaveGlobal lock owner = some (effect.world, effect.notes) := by
  cases frame with
  | start op =>
    cases op with
    | access access =>
      cases access with
      | globalLeave named other =>
        obtain ⟨rfl, rfl⟩ := Prod.mk.inj (Option.some.inj gives)
        obtain ⟨v, notes, leaves, rfl⟩ := World.leaves_of_bind step
        exact leaves
      | _ => simp [gives?] at gives
    | release n =>
      obtain ⟨rfl, rfl⟩ := Prod.mk.inj (Option.some.inj gives)
      obtain ⟨v, notes, leaves, rfl⟩ := World.leaves_of_bind step
      exact leaves
    | _ => simp [gives?] at gives
  | polling p =>
    simp only [gives?] at gives
    split at gives
    · rename_i point
      obtain ⟨rfl, rfl⟩ := Prod.mk.inj (Option.some.inj gives)
      simp only [advance, Polling.advance, point] at step
      obtain ⟨v, notes, leaves, rfl⟩ := World.leaves_of_bind step
      exact leaves
    · simp at gives
  | pausing p =>
    simp only [gives?] at gives
    split at gives
    · rename_i held
      obtain ⟨rfl, rfl⟩ := Prod.mk.inj (Option.some.inj gives)
      simp only [advance, Pausing.advance, held.1, held.2, if_true] at step
      obtain ⟨v, notes, leaves, rfl⟩ := World.leaves_of_bind step
      exact leaves
    · simp at gives
  | blocking b =>
    simp only [gives?] at gives
    split at gives
    · rename_i held
      obtain ⟨rfl, rfl⟩ := Prod.mk.inj (Option.some.inj gives)
      simp only [advance, Blocking.advance, held.1, held.2, if_true] at step
      obtain ⟨v, notes, leaves, rfl⟩ := World.leaves_of_bind step
      exact leaves
    · simp at gives
  | _ => simp [gives?] at gives

/-- A step takes a lock only when it is free, and gives it back only when it is taken, if it has the
key to it. -/
theorem Frame.ledger_of_step (step : frame.advance self w = some effect)
    (taken : frame.clears ref = true → (w.lock ref).owner ≠ none) :
    Ledger ref (w.lock ref).owner effect.notes (effect.world.lock ref).owner := by
  have otherwise (waits : ∀ a, frame ≠ .acquisition a)
      (tries : ∀ lock owner, frame ≠ .start (.access (.globalTryEnter lock owner)))
      (gives : frame.gives? self w = none) (clears : frame.clears ref = false) :
      Ledger ref (w.lock ref).owner effect.notes (effect.world.lock ref).owner :=
    .quiet (Frame.quiet_of_step step waits tries gives clears)
      (Frame.owner_of_step step waits tries gives clears)
  cases frame with
  | acquisition a => exact (Acquisition.goes step).ledger
  | release lock point =>
    cases clears : (release lock point).clears ref with
    | false => exact otherwise (by simp) (by simp) rfl clears
    | true =>
      simp only [Frame.clears, Bool.and_eq_true, decide_eq_true_eq] at clears
      obtain ⟨rfl, rfl⟩ := clears
      obtain ⟨owner, owned⟩ := Option.ne_none_iff_exists'.mp (taken (by simp [Frame.clears]))
      simp only [advance, Release.advance] at step
      split at step
      · obtain rfl := Option.some.inj step
        dsimp only
        rw [World.lock_modifyLock, if_pos rfl, owned]
        exact .cleared (.nil _)
      · simp at step
  | start op =>
    by_cases tries : ∃ lock owner, op = .access (.globalTryEnter lock owner)
    · obtain ⟨lock, owner, rfl⟩ := tries
      simp only [advance, Op.advance, Access.advance] at step
      split at step
      · split at step <;> obtain rfl := Option.some.inj step
        · rename_i free
          by_cases own : ref = .global lock
          · subst own
            dsimp only
            rw [World.lock_modifyLock, if_pos rfl, free]
            exact .took (.nil _)
          · dsimp only
            rw [World.lock_modifyLock, if_neg own]
            exact .skip (by simpa [Note.turns] using Ne.symm own) (.nil _)
        · exact .nil _
      · simp at step
    · cases gives : (start op).gives? self w with
      | none =>
        exact otherwise (by simp) (fun lock owner same => tries ⟨lock, owner, start.inj same⟩) gives rfl
      | some given => exact World.ledger_leaveGlobal (Frame.leaves_of_gives step gives)
  | polling p =>
    cases gives : (polling p).gives? self w with
    | none => exact otherwise (by simp) (by simp) gives rfl
    | some given => exact World.ledger_leaveGlobal (Frame.leaves_of_gives step gives)
  | pausing p =>
    cases gives : (pausing p).gives? self w with
    | none => exact otherwise (by simp) (by simp) gives rfl
    | some given => exact World.ledger_leaveGlobal (Frame.leaves_of_gives step gives)
  | blocking b =>
    cases gives : (blocking b).gives? self w with
    | none => exact otherwise (by simp) (by simp) gives rfl
    | some given => exact World.ledger_leaveGlobal (Frame.leaves_of_gives step gives)
  | _ => exact otherwise (by simp) (by simp) rfl rfl

namespace World.KeyAt

variable {place : KeyPlace}

/-- Who gives the lock back has the key. -/
theorem taken (key : w.KeyAt ref place) (stack : w.stack self = frame :: rest)
    (clears : frame.clears ref = true) : place = .thread self := by
  have keys := key.threads self
  rw [stack, keysOf_eq_keysIn (by rintro a rfl; simp [Frame.clears] at clears), keysIn_cons] at keys
  have own : frame.keys ref = 1 := by
    cases frame with
    | release lock point =>
      simp only [Frame.clears, Bool.and_eq_true, decide_eq_true_eq] at clears
      simp [Frame.keys, clears]
    | _ => simp [Frame.clears] at clears
  by_contra elsewhere
  rw [own, if_neg elsewhere] at keys
  omega

/-- A step of a thread leaves the keys of the others alone. -/
theorem of_step {effect : Effect} {place' : KeyPlace} (key : w.KeyAt ref place)
    (step : frame.advance self w = some effect)
    (mine : keysOf ref (effect.control.stack rest) = if place' = .thread self then 1 else 0)
    (kept : effect.world.keysKept ref = if place' = .user then 1 else 0)
    (owner : (effect.world.lock ref).owner = none ↔ place' = .lock)
    (others : ∀ thread, thread ≠ self → (place' = .thread thread ↔ place = .thread thread)) :
    (effect.world.setStack self (effect.control.stack rest)).KeyAt ref place' := by
  refine ⟨fun thread => ?_, kept, by rw [World.lock_setStack, owner]⟩
  rw [World.stack_setStack]
  split
  · rename_i own
    rw [mine, own]
  · rename_i other
    rw [Frame.advance_stack step, key.threads]
    simp only [others thread other]

/-- A key that no other thread has is with the thread after its step, or with user code. -/
theorem settle {effect : Effect} (key : w.KeyAt ref place)
    (near : ∀ thread, thread ≠ self → place ≠ .thread thread)
    (step : frame.advance self w = some effect)
    (one : keysOf ref (effect.control.stack rest) + effect.world.keysKept ref = 1)
    (owned : (effect.world.lock ref).owner ≠ none) :
    (effect.world.setStack self (effect.control.stack rest)).IsKeyed ref := by
  by_cases mine : keysOf ref (effect.control.stack rest) = 1
  · refine ⟨.thread self, key.of_step step (by simpa using mine) ?_ (by simpa using owned) ?_⟩
    · simp only [reduceCtorEq, if_false]
      omega
    · intro thread other
      simpa [Ne.symm other] using near thread other
  · refine ⟨.user, key.of_step step ?_ ?_ (by simpa using owned) ?_⟩
    · simp only [reduceCtorEq, if_false]
      omega
    · simp only [if_true]
      omega
    · intro thread other
      simpa using near thread other

end World.KeyAt

/-- A lock that is taken has an owner, one that is given back has none, and no other step matters. -/
theorem Frame.owner_cases (isLocal : ∀ g, ref ≠ .global g) (step : frame.advance self w = some effect) :
    (frame.takes ref w = true ∧ frame.clears ref = false ∧ (w.lock ref).owner = none ∧
        (effect.world.lock ref).owner ≠ none) ∨
      (frame.takes ref w = false ∧ frame.clears ref = true ∧ (effect.world.lock ref).owner = none) ∨
      (frame.takes ref w = false ∧ frame.clears ref = false ∧
        (effect.world.lock ref).owner = (w.lock ref).owner) := by
  by_cases acquires : ∃ a, frame = .acquisition a
  · obtain ⟨a, rfl⟩ := acquires
    cases takes : (Frame.acquisition a).takes ref w with
    | true =>
      simp only [Frame.takes, Bool.and_eq_true, decide_eq_true_eq] at takes
      obtain ⟨⟨rfl, point⟩, free⟩ := takes
      refine .inl ⟨rfl, rfl, free, ?_⟩
      cases Acquisition.goes step with
      | takes =>
        dsimp only
        rw [World.lock_modifyLock, if_pos rfl]
        simp
      | sleeps _ _ _ _ owned | enters _ _ _ _ owned => exact absurd free owned
      | installs _ here | obeys _ here | looks _ here | yields _ here | stays _ here | awaits _ here
      | restores _ here => simp [point] at here
    | false =>
      refine .inr (.inr ⟨rfl, rfl, ?_⟩)
      cases (Frame.handles step : effect.Handles ref self w _) with
      | keeps same => rw [same]
      | takes top own test isOpen free =>
        obtain rfl := Frame.acquisition.inj top
        simp [Frame.takes, own, test, free] at takes
      | enters _ _ _ _ _ same | exits _ _ _ same | awaits _ _ _ _ same | notifies same =>
        rw [same]
        rfl
      | tries top | clears top => cases top
      | leaves _ _ gives => simp [gives?] at gives
  · have other (a : Acquisition) : frame ≠ .acquisition a := fun same => acquires ⟨a, same⟩
    have takes : frame.takes ref w = false := by
      cases frame with
      | acquisition a => exact absurd rfl (other a)
      | _ => rfl
    cases clears : frame.clears ref with
    | true =>
      refine .inr (.inl ⟨takes, rfl, ?_⟩)
      cases frame with
      | release lock point =>
        simp only [Frame.clears, Bool.and_eq_true, decide_eq_true_eq] at clears
        obtain ⟨rfl, rfl⟩ := clears
        simp only [advance, Release.advance] at step
        split at step
        · obtain rfl := Option.some.inj step
          dsimp only
          rw [World.lock_modifyLock, if_pos rfl]
          rfl
        · simp at step
      | _ => simp [Frame.clears] at clears
    | false =>
      refine .inr (.inr ⟨takes, rfl, ?_⟩)
      cases (Frame.handles step : effect.Handles ref self w _) with
      | keeps same => rw [same]
      | takes top | enters top | exits top | awaits top => exact absurd top (other _)
      | tries _ own | leaves own => exact absurd own (isLocal _)
      | clears top => simp [top, Frame.clears] at clears
      | notifies same => rw [same, OwnedLock.notify_owner]

theorem World.IsKeyed.step (isLocal : ∀ g, ref ≠ .global g) (keyed : w.IsKeyed ref) (laid : w.IsLaid)
    (seated : w.IsSeated) (stack : w.stack self = frame :: rest)
    (step : frame.advance self w = some effect) :
    (effect.world.setStack self (effect.control.stack rest)).IsKeyed ref := by
  obtain ⟨place, key⟩ := keyed
  have seated : Seated self (frame :: rest) := stack ▸ seated self
  have keys := seated.keysOf_of_step isLocal (stack ▸ laid self) step
  have mine := key.threads self
  rw [stack] at mine
  rw [mine, key.kept] at keys
  obtain ⟨takes, clears, free, owned⟩ | ⟨takes, clears, free⟩ | ⟨takes, clears, same⟩ :=
    Frame.owner_cases isLocal step
  · obtain rfl := key.owner.mp free
    simp only [takes, clears, if_true, Bool.false_eq_true, if_false] at keys
    exact key.settle (by simp) step keys owned
  · obtain rfl := key.taken stack clears
    have none : keysOf ref (effect.control.stack rest) = 0 ∧ effect.world.keysKept ref = 0 := by
      simpa [takes, clears] using keys
    exact ⟨.lock, key.of_step step none.1 none.2 (by simpa using free) fun thread other => by
      simpa using Ne.symm other⟩
  · simp only [takes, clears, Bool.false_eq_true, if_false, Nat.add_zero] at keys
    by_cases near : place = .thread self ∨ place = .user
    · refine key.settle ?_ step ?_ ?_
      · rintro thread other rfl
        simp [other] at near
      · obtain rfl | rfl := near <;> simpa using keys
      · rw [same, Ne, key.owner]
        obtain rfl | rfl := near <;> simp
    · obtain ⟨away, unkept⟩ := not_or.mp near
      simp only [away, unkept, if_false] at keys
      exact ⟨place, key.of_step step (by simp only [away, if_false]; omega)
        (by simp only [unkept, if_false]; omega) (by rw [same, key.owner]) fun _ _ => Iff.rfl⟩

theorem World.IsKeyed.other {move : Move} (keyed : w.IsKeyed ref)
    (moves : w.move move = some (v, notes)) (other : ∀ self, move ≠ .run self) : v.IsKeyed ref := by
  obtain ⟨place, key⟩ := keyed
  refine ⟨place, fun thread => ?_, ?_, ?_⟩
  · rw [← key.threads]
    obtain ⟨-, same | ⟨op, empty, told⟩ | ⟨frame, frame', below, found, woken, rouses⟩⟩ :=
      World.move_other moves (other thread)
    · rw [same]
    · rw [empty, told]
      rfl
    · rw [found, woken]
      cases rouses <;> rfl
  · rw [← key.kept]
    exact World.keysKept_eq (congrArg Prod.fst (World.kept_other moves other))
  · rw [← key.owner]
    obtain same | ⟨_, same⟩ := World.lock_other ref moves other <;> rw [same]
    rfl

theorem World.silent_other {move : Move} (moves : w.move move = some (v, notes))
    (other : ∀ self, move ≠ .run self) : notes = [] := by
  cases move with
  | run self => exact absurd rfl (other self)
  | submit thread op =>
    obtain ⟨u, -, same⟩ := Option.map_eq_some_iff.mp moves
    exact (Prod.mk.inj same).2.symm
  | elapse | rouse => exact (Prod.mk.inj (Option.some.inj moves)).2.symm

/-- What locks, keys and procedures have to do with each other. -/
structure World.IsSettled (w : World) : Prop where
  laid : w.IsLaid
  seated : w.IsSeated
  keyed : ∀ {ref}, (∀ g, ref ≠ .global g) → w.IsKeyed ref

theorem World.IsUnlocked.isSettled (unlocked : w.IsUnlocked) : w.IsSettled where
  laid thread := by
    rw [unlocked.idle]
    trivial
  seated thread := by
    rw [unlocked.idle]
    trivial
  keyed := by
    intro ref _
    refine ⟨.lock, fun thread => by simp [unlocked.idle, keysOf], ?_,
      iff_of_true (unlocked.free ref) rfl⟩
    cases ref <;> simp [World.keysKept, unlocked.guards]

theorem World.IsSettled.move {move : Move} (settled : w.IsSettled)
    (moves : w.move move = some (v, notes)) : v.IsSettled := by
  refine ⟨settled.laid.move moves, settled.seated.move settled.laid moves, fun isLocal => ?_⟩
  by_cases runs : ∃ self, move = .run self
  · obtain ⟨self, rfl⟩ := runs
    obtain ⟨frame, rest, effect, stack, step, rfl, -⟩ := World.step_eq_some moves
    exact (settled.keyed isLocal).step isLocal settled.laid settled.seated stack step
  · exact (settled.keyed isLocal).other moves fun self same => runs ⟨self, same⟩

theorem Course.isSettled {custom : World → ThreadId → Prop} {moments : List Moment}
    (course : Course custom w moments v) (unlocked : w.IsUnlocked) : v.IsSettled :=
  course.keeps (P := World.IsSettled) (fun settled _ moves => settled.move moves) unlocked.isSettled

theorem World.IsSettled.ledger {move : Move} (settled : w.IsSettled)
    (moves : w.move move = some (v, notes)) : Ledger ref (w.lock ref).owner notes (v.lock ref).owner := by
  by_cases runs : ∃ self, move = .run self
  · obtain ⟨self, rfl⟩ := runs
    obtain ⟨frame, rest, effect, stack, step, rfl, rfl⟩ := World.step_eq_some moves
    rw [World.lock_setStack]
    refine (Frame.ledger_of_step step fun clears => ?_).append (.quiet (fun note mem => ?_) rfl)
    · have sits := stack ▸ settled.seated self
      have isLocal : ∀ g, ref ≠ .global g := by
        cases frame with
        | release lock point =>
          simp only [Frame.clears, Bool.and_eq_true, decide_eq_true_eq] at clears
          exact clears.1 ▸ sits.1
        | _ => simp [Frame.clears] at clears
      obtain ⟨place, key⟩ := settled.keyed isLocal
      rw [Ne, key.owner, key.taken stack clears]
      simp
    · obtain ⟨value, rfl⟩ := Control.completed_of_mem mem
      rfl
  · have other (self : ThreadId) : move ≠ .run self := fun same => runs ⟨self, same⟩
    obtain rfl : notes = [] := World.silent_other moves other
    obtain same | ⟨_, same⟩ := World.lock_other ref moves other <;> rw [same] <;> exact .nil _

/-- The ledger of a run. -/
theorem Course.ledger {custom : World → ThreadId → Prop} {moments : List Moment}
    (course : Course custom w moments v) (unlocked : w.IsUnlocked) :
    Ledger ref (w.lock ref).owner (moments.flatMap (·.notes)) (v.lock ref).owner := by
  induction course with
  | nil => exact .nil _
  | snoc before _ moves ih =>
    rw [List.flatMap_append]
    refine ih.append ?_
    simpa using (before.isSettled unlocked).ledger moves

theorem Acquisition.Sits.own {a : Acquisition} (sits : a.Sits self rest)
    (isLocal : ∀ g, a.lock ≠ .global g) : a.owner = self := by
  cases sits with
  | guard _ owner | entering _ owner | pausing _ owner => exact owner
  | global own => exact absurd own (isLocal _)

/-- A thread takes a lock that is given back with a key for itself. -/
theorem Frame.took_own {owner : ThreadId} (isLocal : ∀ g, ref ≠ .global g)
    (sits : frame.Sits self rest) (step : frame.advance self w = some effect)
    (took : .took ref owner ∈ effect.notes) : owner = self := by
  have loud {frame : Frame} (step : frame.advance self w = some effect) (waits : ∀ a, frame ≠ .acquisition a)
      (tries : ∀ lock owner, frame ≠ .start (.access (.globalTryEnter lock owner)))
      (clears : frame.clears ref = false) : False := by
    cases gives : frame.gives? self w with
    | none => simpa [Note.turns] using Frame.quiet_of_step step waits tries gives clears _ took
    | some given =>
      have leaves := Frame.leaves_of_gives step gives
      simp only [World.leaveGlobal] at leaves
      split at leaves
      · rw [← (Prod.mk.inj (Option.some.inj leaves)).2] at took
        split at took <;> simp at took
      · simp at leaves
  cases frame with
  | acquisition a =>
    cases Acquisition.goes step with
    | takes =>
      obtain ⟨rfl, rfl⟩ := Note.took.inj (List.mem_singleton.mp took)
      exact Acquisition.Sits.own sits isLocal
    | _ => simp at took
  | start op =>
    by_cases tries : ∃ lock owner, op = .access (.globalTryEnter lock owner)
    · obtain ⟨lock, named, rfl⟩ := tries
      simp only [advance, Op.advance, Access.advance] at step
      repeat' split at step
      · obtain rfl := Option.some.inj step
        exact absurd (Note.took.inj (List.mem_singleton.mp took)).1 (isLocal lock)
      · obtain rfl := Option.some.inj step
        simp at took
      · simp at step
    · exact (loud step (by simp) (fun lock named same => tries ⟨lock, named, start.inj same⟩) rfl).elim
  | release lock point =>
    cases clears : (release lock point).clears ref with
    | false => exact (loud step (by simp) (by simp) clears).elim
    | true =>
      simp only [advance, Release.advance] at step
      repeat' split at step
      all_goals first
        | (obtain rfl := Option.some.inj step
           simp at took)
        | simp at step
  | _ => exact (loud step (by simp) (by simp) rfl).elim

end

end StopTheWorld
