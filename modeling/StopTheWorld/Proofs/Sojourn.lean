import StopTheWorld.Proofs.Conservation
import StopTheWorld.Proofs.Interlude
import StopTheWorld.Proofs.Lodging

namespace StopTheWorld

/-! The call of a thread that is not registered and drives a pause nevertheless: it registers for that,
without a record, and leaves again. -/

/-- All that a thread tells of a stay in which it drives the `k`-th pause, with this many participants
and of this duration, and runs no action. -/
def sojourn (m : ManagerId) (self : ThreadId) (k participants duration : Nat) : List Note :=
  [.registered (.registry (.manager m)), .inserted (.manager m) self, .published m (.entered self),
    .published m (.pauseStarted self)] ++ conduct m k ++
  [.published m (.pauseCompleted self participants duration), .removed (.manager m) self,
    .departed (.registry (.manager m)), .published m (.left self)]

/-- The entry of a thread that is registered for one call only. -/
def lodger (self : ThreadId) : Registration where
  identity := self
  record := none
  interruptible := false

/-- The entry of the thread when it has told this much of its stay. -/
def lodging (self : ThreadId) (told : Nat) : Option Registration :=
  if 2 ≤ told ∧ told ≤ 8 then some (lodger self) else none

/-- How much of its stay a driver has told. -/
def Pausing.Point.tale : Pausing.Point → Nat
  | gate | lookup | lock | poll | «open» | announceStart => 3
  | store | invalidate => 4
  | wakeWaiters | interrupt | leaveGlobal | enterPhases => 5
  | exitPhases => 6
  | clear | account | unlock | announceEnd => 7
  | resume | abandon => 8

/-- The call, while it waits for its pause. -/
def visiting (m : ManagerId) (action : List Op) : Frame :=
  .foreign { manager := m, action := action, added := true, point := .leave }

/-- The procedures of the call, and how much of the stay has been told. -/
inductive Sojourn (m : ManagerId) (self : ThreadId) (action : List Op) : List Frame → Nat → Prop
  | begins : Sojourn m self action [.foreign { manager := m, action := action }] 0
  | enters {point : Entering.Point} (early : point ≠ .announce ∧ point ≠ .unlock) :
      Sojourn m self action
        [.entering { manager := m, record := none, interruptible := false, point := point },
          .foreign { manager := m, action := action, point := .pause }] 0
  | claims : Sojourn m self action
      [.enrolment { registry := .manager m, entry := lodger self },
        .entering { manager := m, record := none, interruptible := false, point := .announce },
        .foreign { manager := m, action := action, point := .pause }] 0
  | inserts : Sojourn m self action
      [.enrolment { registry := .manager m, entry := lodger self, point := .insert },
        .entering { manager := m, record := none, interruptible := false, point := .announce },
        .foreign { manager := m, action := action, point := .pause }] 1
  | listed : Sojourn m self action
      [.entering
          { manager := m, record := none, interruptible := false, added := true, point := .announce },
        .foreign { manager := m, action := action, point := .pause }] 2
  | unlocks : Sojourn m self action
      [.entering
          { manager := m, record := none, interruptible := false, added := true, point := .unlock },
        .foreign { manager := m, action := action, point := .pause }] 3
  | entered : Sojourn m self action
      [.answer (.succeeded (.truth true)),
        .foreign { manager := m, action := action, point := .pause }] 3
  | calls : Sojourn m self action
      [.foreign { manager := m, action := action, added := true, point := .pause }] 3
  | pauses {p : Pausing} (manager : p.manager = m) (own : p.action = action)
      (record : p.record = none) (outcome : p.outcome = none) :
      Sojourn m self action [.pausing p, visiting m action] p.point.tale
  | paused : Sojourn m self action [.answer (.succeeded .nothing), visiting m action] 8
  | returns : Sojourn m self action
      [.foreign
        { manager := m, action := action, added := true, reply := .succeeded .nothing, point := .leave }] 8
  | leaves {point : Leaving.Point} (early : point ≠ .announce) :
      Sojourn m self action
        [.leaving { manager := m, point := point }, .answer (.succeeded .nothing)] 8
  | removes : Sojourn m self action
      [.withdrawal { registry := .manager m, identity := self },
        .leaving { manager := m, point := .announce }, .answer (.succeeded .nothing)] 8
  | departs {view : RegistrationView} : Sojourn m self action
      [.withdrawal { registry := .manager m, identity := self, removed := some view, point := .depart },
        .leaving { manager := m, point := .announce }, .answer (.succeeded .nothing)] 9
  | departed : Sojourn m self action
      [.leaving { manager := m, left := true, point := .announce }, .answer (.succeeded .nothing)] 10
  | left : Sojourn m self action [.answer (.succeeded .nothing)] 11

/-- What a move tells of a stay, and how much has been told before and after. -/
inductive Moment.Says (m : ManagerId) (self : ThreadId) (action : List Op) (base : List Frame)
    (moment : Moment) (next : World) : List Note → Nat → Nat → Prop
  | nothing (told : Nat) : Says m self action base moment next [] told told
  | registers : Says m self action base moment next [.registered (.registry (.manager m))] 0 1
  | inserts (listed : (next.core m).lookup self = some (lodger self)) :
      Says m self action base moment next [.inserted (.manager m) self] 1 2
  | enters : Says m self action base moment next [.published m (.entered self)] 2 3
  | starts : Says m self action base moment next [.published m (.pauseStarted self)] 3 4
  | invalidates {k : Nat} {f : Foreign}
      (begins : moment.Begins m self action (.foreign f :: base) k) :
      Says m self action base moment next [.invalidated m k] 4 5
  | joins : Says m self action base moment next [.joined m true] 5 6
  | finishes : Says m self action base moment next [.finished m true] 6 7
  | completes (participants duration : Nat) : Says m self action base moment next
      [.published m (.pauseCompleted self participants duration)] 7 8
  | removes : Says m self action base moment next [.removed (.manager m) self] 8 9
  | departs : Says m self action base moment next [.departed (.registry (.manager m))] 9 10
  | leaves : Says m self action base moment next [.published m (.left self)] 10 11

/-- The thread is in such a call, of which it has told this much. -/
def Sojourns (m : ManagerId) (self : ThreadId) (action : List Op) (base stack : List Frame)
    (told : Nat) : Prop :=
  ∃ above frames, stack = above ++ (frames ++ base) ∧ Mute above ∧ Sojourn m self action frames told

section

variable {m : ManagerId} {self : ThreadId} {action : List Op} {w v : World} {frame top : Frame}
  {rest base above frames : List Frame} {effect : Effect} {notes : List Note} {told : Nat}
  {value : Reply}

theorem Mute.nil : Mute [] := .plain (by simp)

theorem Mute.single (mute : frame.IsMute) : Mute [frame] := .plain (by simpa using mute)

/-- A thread outside of all pauses may drive one. -/
theorem World.Coherent.clear (coherent : w.Coherent m) (quiet : Quiet m (w.stack self)) :
    w.Clear m self := by
  refine ⟨fun owner => ?_, (coherent.mark self).trans quiet.unmarked⟩
  have owns : (w.posture m self).owns = true := (coherent.lawful.admits self).owner.mpr owner
  have outside : w.posture m self = .outside := quiet.outside
  simp [outside, Posture.owns] at owns

/-- What such a call waits for leaves it where it is. -/
theorem Sojourn.resume (sojourn : Sojourn m self action (frame :: frames) told)
    (awaits : frame.Awaits m top (frames ++ base)) (mute : top.IsMute) (mild : value.isMild = true)
    (fails : ∀ failure, value = .failed failure → ∃ a, top = .acquisition a) :
    Sojourn m self action (frame.resume value :: frames) told := by
  generalize whole : frame :: frames = stack at sojourn
  cases sojourn with
  | begins | calls | returns =>
    obtain ⟨rfl, rfl⟩ := List.cons.inj whole
    cases top <;> first | exact awaits.elim | exact mute.elim
  | claims | inserts | removes | departs =>
    obtain ⟨rfl, rfl⟩ := List.cons.inj whole
    exact awaits.elim
  | enters | listed | unlocks =>
    obtain ⟨rfl, rfl⟩ := List.cons.inj whole
    cases value <;> first
      | exact .enters ‹_›
      | exact .listed
      | exact .unlocks
      | simp [Reply.isMild] at mild
  | entered | paused | left =>
    obtain ⟨rfl, rfl⟩ := List.cons.inj whole
    first | exact .entered | exact .paused | exact .left
  | leaves early =>
    obtain ⟨rfl, rfl⟩ := List.cons.inj whole
    cases value <;> first | exact .leaves early | simp [Reply.isMild] at mild
  | departed =>
    obtain ⟨rfl, rfl⟩ := List.cons.inj whole
    cases value <;> first | exact .departed | simp [Reply.isMild] at mild
  | @pauses p manager own record outcome =>
    obtain ⟨rfl, rfl⟩ := List.cons.inj whole
    cases value with
    | failed failure =>
      obtain ⟨a, rfl⟩ := fails failure rfl
      obtain ⟨point, -⟩ := awaits
      have same : p.point.tale = ({ p with point := .poll } : Pausing).point.tale := by rw [point]; rfl
      exact same ▸ .pauses manager own record outcome
    | unwound => simp [Reply.isMild] at mild
    | _ => exact .pauses manager own record outcome

/-- The driver takes the stay on, from its registration to the end of its pause. -/
theorem Sojourn.pauses_step {p : Pausing} (coherent : w.Coherent m) (quiet : Quiet m base)
    (stack : w.stack self = .pausing p :: visiting m action :: base)
    (lookup : (w.core m).lookup self = lodging self p.point.tale) (manager : p.manager = m)
    (own : p.action = action) (record : p.record = none) (outcome : p.outcome = none)
    (step : p.advance self w = some effect) :
    ∃ said told, effect.notes.filter (·.isOfStay m) = said ∧
      Moment.Says m self action base
        ⟨w, .run self, effect.notes ++ effect.control.completion (visiting m action :: base)⟩
        (effect.world.setStack self (effect.control.stack (visiting m action :: base))) said
        p.point.tale told ∧
      Sojourns m self action base (effect.control.stack (visiting m action :: base)) told := by
  subst manager own
  have sound := coherent.sound self
  rw [stack] at sound
  have goes (above : List Frame) {p' : Pausing} {said : List Note}
      (shape : effect.control.stack (visiting p.manager p.action :: base) =
        above ++ ([.pausing p', visiting p.manager p.action] ++ base))
      (mute : Mute above) (same : p'.manager = p.manager ∧ p'.action = p.action)
      (record : p'.record = none) (outcome : p'.outcome = none)
      (noted : effect.notes.filter (·.isOfStay p.manager) = said)
      (tells : Moment.Says p.manager self p.action base
        ⟨w, .run self, effect.notes ++ effect.control.completion (visiting p.manager p.action :: base)⟩
        (effect.world.setStack self (effect.control.stack (visiting p.manager p.action :: base))) said
        p.point.tale p'.point.tale) :
      ∃ said told, effect.notes.filter (·.isOfStay p.manager) = said ∧
        Moment.Says p.manager self p.action base
          ⟨w, .run self, effect.notes ++ effect.control.completion (visiting p.manager p.action :: base)⟩
          (effect.world.setStack self (effect.control.stack (visiting p.manager p.action :: base))) said
          p.point.tale told ∧
        Sojourns p.manager self p.action base
          (effect.control.stack (visiting p.manager p.action :: base)) told :=
    ⟨said, _, noted, tells, above, _, shape, mute, .pauses same.1 same.2 record outcome⟩
  cases point : p.point <;> rw [point] at lookup goes <;> simp only [Pausing.advance, point] at step
  case gate =>
    have still : Quiet p.manager (w.stack self) := by
      have visits : Quiet p.manager (visiting p.manager p.action :: base) := quiet.cons rfl rfl rfl
      rw [stack]
      exact visits.cons
        (by simp [Frame.posture, point, Pausing.Point.drives]) (by simp [Frame.marks, point]) rfl
    rw [World.isReentrant_eq_false_iff.mpr (coherent.clear still)] at step
    obtain rfl := Option.some.inj step
    exact goes [] rfl .nil ⟨rfl, rfl⟩ record outcome rfl (.nothing 3)
  case lookup =>
    have found : (w.manager p.manager).registry.get? self = some (lodger self) := lookup
    rw [found] at step
    obtain rfl := Option.some.inj step
    exact goes [] rfl .nil ⟨rfl, rfl⟩ rfl outcome rfl (.nothing 3)
  case lock =>
    obtain rfl := Option.some.inj step
    exact goes [.acquisition _] rfl (.single trivial) ⟨rfl, rfl⟩ record outcome rfl (.nothing 3)
  case poll =>
    obtain rfl := Option.some.inj step
    exact goes [.polling _] rfl (.single ⟨rfl, rfl⟩) ⟨rfl, rfl⟩ record outcome rfl (.nothing 3)
  case «open» =>
    obtain rfl := Option.some.inj step
    exact goes [] rfl .nil ⟨rfl, rfl⟩ record outcome rfl (.nothing 3)
  case announceStart =>
    obtain rfl := Option.some.inj step
    exact goes [] rfl .nil ⟨rfl, rfl⟩ record outcome (by simp [Note.isOfStay]) .starts
  case store =>
    obtain rfl := Option.some.inj step
    exact goes [] rfl .nil ⟨rfl, rfl⟩ record outcome rfl (.nothing 4)
  case invalidate =>
    have begins := coherent.call_begins stack rfl rfl point (by simpa [Pausing.advance, point])
    obtain rfl := Option.some.inj step
    exact goes [] rfl .nil ⟨rfl, rfl⟩ record outcome (by simp [Note.isOfStay]) (.invalidates begins)
  case wakeWaiters =>
    obtain rfl := Option.some.inj step
    refine goes [.notify _] rfl (.single trivial) ⟨rfl, rfl⟩ record outcome rfl ?_
    dsimp only
    split <;> exact .nothing 5
  case interrupt =>
    obtain rfl := Option.some.inj step
    exact goes [.visit _] rfl (.single trivial) ⟨rfl, rfl⟩ record outcome rfl (.nothing 5)
  case leaveGlobal =>
    split at step
    · obtain ⟨⟨u, noted⟩, leaves, goto⟩ := Option.bind_eq_some_iff.mp step
      obtain rfl := Option.some.inj goto
      exact goes [] rfl .nil ⟨rfl, rfl⟩ record outcome
        (World.Agrees.leaveGlobal leaves).2.filter_isOfStay (.nothing 5)
    · obtain rfl := Option.some.inj step
      exact goes [] rfl .nil ⟨rfl, rfl⟩ record outcome rfl (.nothing 5)
  case enterPhases =>
    obtain rfl := Option.some.inj step
    exact goes [.phases _] rfl (.single ⟨record, rfl⟩) ⟨rfl, rfl⟩ record outcome
      (by simp [Note.isOfStay]) .joins
  case exitPhases =>
    obtain rfl := Option.some.inj step
    exact goes [] rfl .nil ⟨rfl, rfl⟩ record outcome (by simp [Note.isOfStay]) .finishes
  case clear =>
    obtain rfl := Option.some.inj step
    exact goes [] rfl .nil ⟨rfl, rfl⟩ record outcome rfl (.nothing 7)
  case account =>
    obtain rfl := Option.some.inj step
    refine goes [] rfl .nil ⟨rfl, rfl⟩ record outcome ?_ (.nothing 7)
    dsimp only
    split <;> simp [Note.isOfStay]
  case unlock =>
    obtain rfl := Option.some.inj step
    exact goes [.release _ _] rfl (.single trivial) ⟨rfl, rfl⟩ record outcome rfl (.nothing 7)
  case announceEnd =>
    obtain rfl := Option.some.inj step
    exact goes [] rfl .nil ⟨rfl, rfl⟩ record outcome (by simp [Note.isOfStay])
      (.completes p.participants p.duration)
  case resume =>
    obtain rfl := Option.some.inj step
    exact ⟨_, _, rfl, .nothing 8, [.resuming _], _, rfl, .single ⟨record, outcome⟩, .paused⟩
  case abandon => exact absurd point sound.1.2.1

/-- The step of the procedure that such a call is inside of takes the stay on, or ends it. -/
theorem Sojourn.step (sojourn : Sojourn m self action (frame :: frames) told) (coherent : w.Coherent m)
    (quiet : Quiet m base) (stack : w.stack self = frame :: (frames ++ base))
    (lookup : (w.core m).lookup self = lodging self told)
    (step : frame.advance self w = some effect) :
    (∃ said told', effect.notes.filter (·.isOfStay m) = said ∧
      Moment.Says m self action base
        ⟨w, .run self, effect.notes ++ effect.control.completion (frames ++ base)⟩
        (effect.world.setStack self (effect.control.stack (frames ++ base))) said told told' ∧
      Sojourns m self action base (effect.control.stack (frames ++ base)) told') ∨
    frames = [] ∧ told = 11 ∧ frame = .answer (.succeeded .nothing) := by
  have ready := coherent.ready self
  rw [stack] at ready
  have reentrant (still : Quiet m (w.stack self)) : w.isReentrant m self = false :=
    World.isReentrant_eq_false_iff.mpr (coherent.clear still)
  have found : (w.manager m).registry.get? self = lodging self told := lookup
  have contains : (w.manager m).registry.contains self = (lodging self told).isSome := by
    rw [Registry.contains_eq_isSome, found]
  generalize whole : frame :: frames = core at sojourn
  cases sojourn with
  | begins =>
    obtain ⟨rfl, rfl⟩ := List.cons.inj whole
    obtain rfl := Option.some.inj step
    exact .inl ⟨_, _, rfl, .nothing 0, [], _, rfl, .nil, .enters (by simp)⟩
  | @enters point early =>
    obtain ⟨rfl, rfl⟩ := List.cons.inj whole
    cases point <;> simp only [Frame.advance, Entering.advance] at step
    case gate =>
      rw [reentrant (stack ▸ (quiet.cons rfl rfl rfl).cons rfl rfl rfl)] at step
      obtain rfl := Option.some.inj step
      exact .inl ⟨_, _, rfl, .nothing 0, [], _, rfl, .nil, .enters (by simp)⟩
    case lookup =>
      rw [contains] at step
      obtain rfl := Option.some.inj step
      exact .inl ⟨_, _, rfl, .nothing 0, [], _, rfl, .nil, .enters (by simp)⟩
    case lock =>
      obtain rfl := Option.some.inj step
      exact .inl ⟨_, _, rfl, .nothing 0, [.acquisition _], _, rfl, .single trivial, .enters (by simp)⟩
    case enrol =>
      obtain rfl := Option.some.inj step
      exact .inl ⟨_, _, rfl, .nothing 0, [], _, rfl, .nil, .claims⟩
    all_goals simp at early
  | claims =>
    obtain ⟨rfl, rfl⟩ := List.cons.inj whole
    simp only [Frame.advance, Enrolment.advance] at step
    split at step
    · simp at step
    · split at step
      · rename_i present
        exact absurd (contains.symm.trans present) (by simp [lodging])
      · obtain rfl := Option.some.inj step
        exact .inl ⟨_, _, by simp [Note.isOfStay], .registers, [], _, rfl, .nil, .inserts⟩
  | inserts =>
    obtain ⟨rfl, rfl⟩ := List.cons.inj whole
    have listed : (effect.world.core m).lookup self = some (lodger self) :=
      Enrolment.lists ready rfl rfl step
    obtain rfl := Option.some.inj step
    exact .inl ⟨_, _, by simp [Note.isOfStay, lodger], .inserts listed, [], _, rfl, .nil, .listed⟩
  | listed =>
    obtain ⟨rfl, rfl⟩ := List.cons.inj whole
    obtain rfl := Option.some.inj step
    exact .inl ⟨_, _, by simp [Note.isOfStay], .enters, [], _, rfl, .nil, .unlocks⟩
  | unlocks =>
    obtain ⟨rfl, rfl⟩ := List.cons.inj whole
    obtain rfl := Option.some.inj step
    exact .inl ⟨_, _, rfl, .nothing 3, [.release _ _], _, rfl, .single trivial, .entered⟩
  | entered =>
    obtain ⟨rfl, rfl⟩ := List.cons.inj whole
    obtain rfl := Option.some.inj step
    exact .inl ⟨_, _, rfl, .nothing 3, [], _, rfl, .nil, .calls⟩
  | calls =>
    obtain ⟨rfl, rfl⟩ := List.cons.inj whole
    obtain rfl := Option.some.inj step
    exact .inl ⟨_, _, rfl, .nothing 3, [], _, rfl, .nil,
      .pauses (p := { manager := m, holdsGlobal := false, action := action }) rfl rfl rfl rfl⟩
  | @pauses p manager own record outcome =>
    obtain ⟨rfl, rfl⟩ := List.cons.inj whole
    exact .inl (pauses_step coherent quiet stack lookup manager own record outcome step)
  | paused =>
    obtain ⟨rfl, rfl⟩ := List.cons.inj whole
    obtain rfl := Option.some.inj step
    exact .inl ⟨_, _, rfl, .nothing 8, [], _, rfl, .nil, .returns⟩
  | returns =>
    obtain ⟨rfl, rfl⟩ := List.cons.inj whole
    obtain rfl := Option.some.inj step
    exact .inl ⟨_, _, rfl, .nothing 8, [], _, rfl, .nil, .leaves (by simp)⟩
  | @leaves point early =>
    obtain ⟨rfl, rfl⟩ := List.cons.inj whole
    cases point <;> simp only [Frame.advance, Leaving.advance] at step
    case gate =>
      rw [(coherent.clear (stack ▸ (quiet.cons rfl rfl rfl).cons rfl rfl rfl)).unmarked] at step
      obtain rfl := Option.some.inj step
      exact .inl ⟨_, _, rfl, .nothing 8, [], _, rfl, .nil, .leaves (by simp)⟩
    case lookup =>
      rw [contains] at step
      obtain rfl := Option.some.inj step
      exact .inl ⟨_, _, rfl, .nothing 8, [], _, rfl, .nil, .leaves (by simp)⟩
    case poll =>
      obtain rfl := Option.some.inj step
      exact .inl ⟨_, _, rfl, .nothing 8, [.polling _], _, rfl, .single ⟨rfl, rfl⟩, .leaves (by simp)⟩
    case withdraw =>
      obtain rfl := Option.some.inj step
      exact .inl ⟨_, _, rfl, .nothing 8, [], _, rfl, .nil, .removes⟩
    case announce => simp at early
  | removes =>
    obtain ⟨rfl, rfl⟩ := List.cons.inj whole
    simp only [Frame.advance, Withdrawal.advance] at step
    split at step
    · simp at step
    · have here : (w.registry (.manager m)).get? self = some (lodger self) := found
      rw [here] at step
      obtain rfl := Option.some.inj step
      exact .inl ⟨_, _, by simp [Note.isOfStay], .removes, [], _, rfl, .nil, .departs⟩
  | departs =>
    obtain ⟨rfl, rfl⟩ := List.cons.inj whole
    have parties : (w.phaser (.registry (.manager m))).parties ≠ 0 :=
      ready.departs (by simp [Frame.posture])
    simp only [Frame.advance, Withdrawal.advance, World.depart, parties, if_false] at step
    obtain rfl := Option.some.inj step
    refine .inl ⟨_, _, ?_, .departs, [], _, rfl, .nil, .departed⟩
    split <;> simp [Note.isOfStay]
  | departed =>
    obtain ⟨rfl, rfl⟩ := List.cons.inj whole
    obtain rfl := Option.some.inj step
    exact .inl ⟨_, _, by simp [Note.isOfStay], .leaves, [], _, rfl, .nil, .left⟩
  | left =>
    obtain ⟨rfl, rfl⟩ := List.cons.inj whole
    exact .inr ⟨rfl, rfl, rfl⟩

/-- Only by registering or deregistering does a thread change its entry. -/
theorem World.Coherent.lookup_step (coherent : w.Coherent m) (orderly : Orderly m w self)
    (step : w.step self = some (v, notes)) :
    notes.filter (·.isOfStay m) ≠ [.removed (.manager m) self] ∧
        (v.core m).lookup self = (w.core m).lookup self ∨
      (∃ identity, notes.filter (·.isOfStay m) = [.inserted (.manager m) identity]) ∨
      notes.filter (·.isOfStay m) = [.removed (.manager m) self] ∧ (v.core m).lookup self = none := by
  obtain ⟨-, deed, moves, told⟩ := coherent.step orderly step
  have core : v.core m = (w.core m).after self deed := moves.core
  rw [← filter_isOfStay_filter_tellsOf, told, core]
  have advances := moves.advances
  generalize (w.scene m).posture self = before at advances
  generalize (v.scene m).posture self = after at advances
  cases advances with
  | @insert entry own => exact .inr (.inl ⟨entry.identity, by simp [Core.notes, Note.isOfStay]⟩)
  | remove =>
    refine .inr (.inr ⟨by simp [Core.notes, Note.isOfStay], ?_⟩)
    simp [Core.after, Core.lookup]
  | depart | wait | complete =>
    refine .inl ⟨?_, rfl⟩
    simp only [Core.notes]
    split <;> simp [Note.isOfStay]
  | _ => exact .inl ⟨by simp [Core.notes, Note.isOfStay], rfl⟩

namespace Sojourns

variable (sojourns : Sojourns m self action base (w.stack self) told) (coherent : w.Coherent m)
  (lookup : (w.core m).lookup self = lodging self told)

include sojourns in
theorem deep : base.length < (w.stack self).length := by
  obtain ⟨above, frames, stack, -, sojourn⟩ := sojourns
  rw [stack]
  cases sojourn <;> simp <;> omega

include sojourns coherent lookup in
/-- A step of such a call takes the stay on, or ends the call when all of it has been told. -/
theorem step (orderly : Orderly m w self) (quiet : Quiet m base)
    (step : w.step self = some (v, notes)) :
    (∃ said told', notes.filter (·.isOfStay m) = said ∧
      Moment.Says m self action base ⟨w, .run self, notes⟩ v said told told' ∧
      Sojourns m self action base (v.stack self) told') ∨
    told = 11 ∧ notes.filter (·.isOfStay m) = [] ∧
      (⟨w, .run self, notes⟩ : Moment).Replies self base (.succeeded .nothing) := by
  have ready := coherent.ready self
  obtain ⟨top, rest, effect, stands, advance, rfl, rfl⟩ := World.step_eq_some step
  rw [World.stack_setStack, if_pos rfl]
  have silent : Silent m (effect.control.completion rest) := fun note mem => by
    obtain ⟨value, rfl⟩ := Control.completed_of_mem mem
    rfl
  have noted : (effect.notes ++ effect.control.completion rest).filter (·.isOfStay m) =
      effect.notes.filter (·.isOfStay m) := by
    rw [List.filter_append, silent.filter_isOfStay, List.append_nil]
  rw [noted]
  obtain ⟨above, frames, stack, mute, sojourn⟩ := sojourns
  obtain ⟨head, frames, rfl⟩ : ∃ head tail, frames = head :: tail := by
    cases sojourn <;> exact ⟨_, _, rfl⟩
  cases above with
  | nil =>
    obtain ⟨rfl, rfl⟩ := List.cons.inj (stands.symm.trans stack)
    obtain on | ⟨rfl, rfl, rfl⟩ := sojourn.step coherent quiet stack lookup advance
    · exact .inl on
    · obtain rfl := Option.some.inj advance
      exact .inr ⟨rfl, rfl, rfl, _, _, stack, rfl, rfl⟩
  | cons first above =>
    obtain ⟨rfl, rfl⟩ := List.cons.inj ((stands.symm.trans stack).trans (List.cons_append ..))
    have unrecorded : ∀ entry, (w.core m).lookup self = some entry → entry.record = none := by
      intro entry found
      rw [lookup, lodging] at found
      split at found
      · obtain rfl := Option.some.inj found
        rfl
      · simp at found
    obtain ⟨quieted, ⟨above', same, mute'⟩ | ⟨rfl, value, replies, mild, fails⟩⟩ :=
      mute.step coherent orderly (stands.trans rfl) unrecorded advance
    · exact .inl ⟨[], told, quieted, .nothing told, above', _, same, mute', sojourn⟩
    · have here : top.IsMute := by
        generalize whole : [top] = frames' at mute
        cases mute with
        | plain mute => exact mute top (whole ▸ List.mem_cons_self)
        | @calls callback => cases callback <;> simp at whole
      rw [stands] at ready
      have awaits : head.Awaits m top (frames ++ base) := ready.sound.2.1
      refine .inl ⟨[], told, quieted, .nothing told, [], _, ?_, .nil,
        sojourn.resume awaits here mild fails⟩
      rw [replies]
      rfl

include sojourns in
/-- What other threads do leaves the call where it is. -/
theorem other {move : Move} (moves : w.move move = some (v, notes)) (other : move ≠ .run self) :
    Sojourns m self action base (v.stack self) told := by
  obtain ⟨above, frames, stack, mute, sojourn⟩ := sojourns
  obtain ⟨-, same | ⟨op, idle, -⟩ | ⟨top, top', rest, before, after, rouses⟩⟩ :=
    World.move_other moves other
  · exact ⟨above, frames, same.trans stack, mute, sojourn⟩
  · cases sojourn <;> simp [idle] at stack
  · cases above with
    | nil =>
      rw [before] at stack
      cases sojourn <;> obtain ⟨rfl, -⟩ := List.cons.inj stack <;> cases rouses
    | cons first above =>
      obtain ⟨rfl, rfl⟩ := List.cons.inj ((before.symm.trans stack).trans (List.cons_append ..))
      exact ⟨top' :: above, frames, after, mute.rouse rouses, sojourn⟩

end Sojourns

/-- What a thread tells of its stays. -/
def stayOf (m : ManagerId) (thread : ThreadId) (moments : List Moment) : List Note :=
  (((observations moments).filter (·.1 = thread)).map (·.2)).filter (·.isOfStay m)

theorem stayOf_append (first second : List Moment) :
    stayOf m self (first ++ second) = stayOf m self first ++ stayOf m self second := by
  simp [stayOf]

theorem stayOf_run : stayOf m self [⟨w, .run self, notes⟩] = notes.filter (·.isOfStay m) := by
  simp [stayOf, List.filter_map, Function.comp_def]

theorem stayOf_other {move : Move} (other : move ≠ .run self) :
    stayOf m self [⟨w, move, notes⟩] = [] := by
  cases move with
  | run thread =>
    have ne : thread ≠ self := fun same => other (same ▸ rfl)
    simp [stayOf, List.filter_map, Function.comp_def, ne]
  | _ => rfl

/-- As far as the call has got, its thread has told of one stay, in which it drives the `k`-th pause. -/
structure Sojourner (m : ManagerId) (thread : ThreadId) (action : List Op) (base : List Frame) (told k : Nat)
    (moments : List Moment) (w : World) : Prop where
  sojourns : Sojourns m thread action base (w.stack thread) told
  entry : (w.core m).lookup thread = lodging thread told
  tells : ∃ participants duration,
    stayOf m thread moments = (sojourn m thread k participants duration).take told
  begun : 4 < told → ∃ moment ∈ moments, ∃ f, moment.Begins m thread action (.foreign f :: base) k

namespace Sojourner

variable {moments : List Moment} {k : Nat} (sojourner : Sojourner m self action base told k moments w)

include sojourner

/-- What is told next is what is next to be told. -/
theorem snoc {moment : Moment} {said : List Note} {told' : Nat}
    (saying : moment.Says m self action base v said told told')
    (noted : stayOf m self [moment] = said) (sojourns : Sojourns m self action base (v.stack self) told')
    (entry : (v.core m).lookup self = lodging self told') :
    ∃ k, Sojourner m self action base told' k (moments ++ [moment]) v := by
  obtain ⟨-, -, ⟨participants, duration, tells⟩, begun⟩ := sojourner
  have goes (n d : Nat) (begun : 4 < told' → 4 < told)
      (next : (sojourn m self k participants duration).take told ++ said =
        (sojourn m self k n d).take told') :
      ∃ k, Sojourner m self action base told' k (moments ++ [moment]) v := by
    refine ⟨k, sojourns, entry, ⟨n, d, ?_⟩, fun late => ?_⟩
    · rw [stayOf_append, tells, noted, next]
    · obtain ⟨first, mem, begins⟩ := ‹4 < told → _› (begun late)
      exact ⟨first, List.mem_append_left _ mem, begins⟩
  cases saying with
  | nothing => exact goes participants duration id (List.append_nil _)
  | registers | inserts | enters | starts => exact goes participants duration (by omega) rfl
  | joins | finishes | removes | departs | leaves => exact goes participants duration (by omega) rfl
  | completes n d => exact goes n d (by omega) rfl
  | @invalidates k' f begins =>
    refine ⟨k', sojourns, entry, ⟨participants, duration, ?_⟩, fun _ =>
      ⟨moment, List.mem_append_right _ List.mem_cons_self, f, begins⟩⟩
    rw [stayOf_append, tells, noted]
    rfl

/-- Every move takes the stay on, or ends the call when all of it has been told. -/
theorem move {move : Move} (coherent : w.Coherent m)
    (orderly : ∀ thread, move = .run thread → Orderly m w thread) (quiet : Quiet m base)
    (moves : w.move move = some (v, notes)) :
    (∃ told' k', Sojourner m self action base told' k' (moments ++ [⟨w, move, notes⟩]) v) ∨
      told = 11 ∧ stayOf m self [⟨w, move, notes⟩] = [] ∧
        (⟨w, move, notes⟩ : Moment).Replies self base (.succeeded .nothing) := by
  by_cases own : move = .run self
  · subst own
    have kept := coherent.lookup_step (orderly self rfl) moves
    obtain ⟨said, told', noted, saying, sojourns⟩ | ended :=
      sojourner.sojourns.step coherent sojourner.entry (orderly self rfl) quiet moves
    · refine .inl ⟨told', sojourner.snoc saying (stayOf_run.trans noted) sojourns ?_⟩
      rw [noted, sojourner.entry] at kept
      cases saying with
      | inserts listed => exact listed
      | removes =>
        obtain ⟨other, -⟩ | ⟨identity, other⟩ | ⟨-, gone⟩ := kept
        · exact absurd rfl other
        · simp at other
        · exact gone
      | _ =>
        obtain ⟨-, kept⟩ | ⟨identity, other⟩ | ⟨other, -⟩ := kept
        · exact kept
        · simp at other
        · simp at other
    · exact .inr ⟨ended.1, stayOf_run.trans ended.2.1, ended.2.2⟩
  · refine .inl ⟨told, sojourner.snoc (.nothing told) (stayOf_other own)
      (sojourner.sojourns.other moves own) ?_⟩
    exact (coherent.lookup_other orderly moves own).trans sojourner.entry

end Sojourner

end

end StopTheWorld
