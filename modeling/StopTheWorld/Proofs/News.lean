import StopTheWorld.Proofs.PauseEvents
import StopTheWorld.Proofs.Roll

namespace StopTheWorld

/-! A thread that gets into the registry of a manager, or out of it, announces it only some steps
later. Meanwhile that is news, of which its stack tells. -/

/-- The thread of the frame has got into the registry of the manager, or out of it, and has yet to
announce that. -/
def Frame.news? (m : ManagerId) : Frame → Option Bool
  | entering e =>
    if e.manager = m ∧ e.point = .announce ∧ e.added = true then some true else none
  | withdrawal x =>
    if x.registry = .manager m ∧ x.point = .depart ∧ x.removed.isSome = true then some false else none
  | leaving l =>
    if l.manager = m ∧ l.point = .announce ∧ l.left = true then some false else none
  | _ => none

/-- The news of a thread with this stack. -/
def newsOf? (m : ManagerId) (stack : List Frame) : Option Bool := stack.head?.bind (Frame.news? m)

/-- Whether a thread is a member, what news it has, and whether it has announced that it is in. -/
inductive Reflects : Bool → Option Bool → Bool → Prop
  | told (inside : Bool) : Reflects inside none inside
  | entered : Reflects true (some true) false
  | left : Reflects false (some false) true

section

variable {m : ManagerId} {self thread : ThreadId} {w v : World} {frame parent : Frame}
  {rest : List Frame} {effect : Effect} {notes : List Note}

@[simp] theorem newsOf?_nil : newsOf? m [] = none := rfl

@[simp] theorem newsOf?_cons : newsOf? m (frame :: rest) = frame.news? m := rfl

/-- A call that is begun or gone on with has no news, unless a deregistration is half done. -/
theorem Frame.news?_of_top? {next : Frame} (step : frame.advance self w = some effect)
    (top : effect.control.top? = some next) (settled : next.isHalfway (.manager m) = false) :
    next.news? m = none := by
  have settles {x : Withdrawal} (same : next = .withdrawal x) : next.news? m = none := by
    subst same
    simp only [isHalfway, Bool.and_eq_false_iff, decide_eq_false_iff_not] at settled
    simp only [news?]
    rw [if_neg fun news => settled.elim (absurd news.1) (absurd news.2.1)]
  cases frame with
  | start op =>
    cases op with
    | access a =>
      cases a with
      | globalLeave =>
        obtain ⟨v, notes, leaves, rfl⟩ := World.leaves_of_bind step
        simp at top
      | _ =>
        simp only [advance, Op.advance, Access.advance] at step
        repeat' split at step
        all_goals first
          | (obtain rfl := Option.some.inj step
             simp at top)
          | simp at step
    | release =>
      obtain ⟨v, notes, leaves, rfl⟩ := World.leaves_of_bind step
      simp at top
    | _ =>
      simp only [advance, Op.advance] at step
      repeat' split at step
      all_goals
        obtain rfl := Option.some.inj step
        simp at top
      all_goals
        subst top
        first
          | rfl
          | simp [news?]
  | _ =>
    simp only [advance, Acquisition.advance, Acquisition.took, Acquisition.gaveUp, Release.advance,
      OwnedLock.advanceNotify, Arrival.advance, Sleeping.advance, Parking.advance,
      Interruption.advance, Enrolment.advance, Withdrawal.advance, Visit.advance, Script.advance,
      Sequence.advance, Drain.advance, Phases.advance, Resuming.advance, Polling.advance,
      Entering.advance, Leaving.advance, Pausing.advance, Foreign.advance, Acquiring.advance,
      Blocking.advance, Trial.advance] at step
    repeat' split at step
    all_goals first
      | (obtain rfl := Option.some.inj step
         simp at top
         done)
      | (obtain rfl := Option.some.inj step
         simp only [Control.top?, Option.some.injEq] at top
         subst top
         first
           | rfl
           | exact settles rfl
           | simp [news?])
      | (obtain ⟨v, notes, leaves, rfl⟩ := World.leaves_of_bind step
         simp only [Control.top?, Option.some.injEq] at top
         subst top
         rfl)
      | simp at step

/-- Whatever catches what unwinds has no news. -/
theorem newsOf?_unwind (message : String) : newsOf? m (Frame.unwind message rest) = none := by
  induction rest with
  | nil => rfl
  | cons parent below ih =>
    simp only [Frame.unwind]
    split
    · rename_i handler caught
      cases parent with
      | visit | phases | pausing | foreign =>
        simp only [Frame.catch?] at caught
        split at caught
        all_goals simp at caught
        subst caught
        rfl
      | _ => simp [Frame.catch?] at caught
    · exact ih

namespace Sound

/-- A reply is news only if it is that of a registration, or of a deregistration. -/
theorem news_of_reply {value : Reply} (sound : Sound m self (frame :: rest))
    (enrolment : ∀ e, frame = .enrolment e → e.registry = .manager m → value = .truth false)
    (withdrawal : ∀ x, frame = .withdrawal x → x.registry = .manager m →
      value = .registration none) : newsOf? m ((Control.reply value).stack rest) = none := by
  cases rest with
  | nil => rfl
  | cons parent below =>
    have stands : parent.Awaits m frame below := sound.2.1
    simp only [Control.stack, newsOf?_cons]
    cases parent with
    | entering e =>
      cases frame with
      | acquisition =>
        simp only [Frame.Awaits] at stands
        cases value <;> simp [Frame.resume, Frame.news?, stands.1]
      | enrolment x =>
        obtain rfl := enrolment x rfl stands.2
        simp [Frame.resume, Frame.news?]
      | _ => exact stands.elim
    | leaving l =>
      cases frame with
      | polling | resuming =>
        simp only [Frame.Awaits] at stands
        cases value <;> simp [Frame.resume, Frame.news?, stands]
      | withdrawal x =>
        obtain rfl := withdrawal x rfl stands.2
        simp [Frame.resume, Frame.news?]
      | _ => exact stands.elim
    | withdrawal => exact stands.elim
    | foreign f =>
      unfold Frame.resume
      dsimp only
      split <;> rfl
    | _ => cases value <;> rfl

/-- A step that gets no thread in or out brings no news. -/
theorem no_news (sound : Sound m self (frame :: rest)) (step : frame.advance self w = some effect)
    (off : frame.isHalfway (.manager m) = false)
    (on : effect.control.enters (Frame.isHalfway (.manager m)) = false) :
    newsOf? m (effect.control.stack rest) = none := by
  have begins {next : Frame} (top : effect.control.top? = some next) : next.news? m = none :=
    Frame.news?_of_top? step top (by
      unfold Control.enters at on
      rwa [top] at on)
  cases control : effect.control with
  | goto next | call next => exact begins (by rw [control]; rfl)
  | unwind message => exact newsOf?_unwind message
  | reply value =>
    refine sound.news_of_reply (fun e same registry => ?_) fun x same registry => ?_
    · subst same
      have claim : e.point = .claim := by
        cases point : e.point <;> simp [Frame.isHalfway, registry, point] at off ⊢
      simp only [Frame.advance, Enrolment.advance, claim] at step
      repeat' split at step
      all_goals first
        | (obtain rfl := Option.some.inj step
           simpa using control.symm)
        | simp at step
    · subst same
      have remove : x.point = .remove := by
        cases point : x.point <;> simp [Frame.isHalfway, registry, point] at off ⊢
      simp only [Frame.advance, Withdrawal.advance, remove] at step
      repeat' split at step
      all_goals first
        | (obtain rfl := Option.some.inj step
           simpa using control.symm)
        | simp at step

end Sound

/-- Only a step of the registry gets a thread in or out, or brings it news. -/
theorem Sound.settled (sound : Sound m self (frame :: rest))
    (step : frame.advance self w = some effect) (busy : frame.isLeaf = false) :
    (effect.world.registry (.manager m)).members = (w.registry (.manager m)).members ∧
      newsOf? m (effect.control.stack rest) = none := by
  cases Frame.enrols (.manager m) step with
  | keeps roll _ off on => exact ⟨congrArg Prod.fst roll, sound.no_news step off on⟩
  | claims top | inserts top | removes top | departs top => simp [top, Frame.isLeaf] at busy

/-- A thread that announces nothing has no news but that of a deregistration that is half done. -/
theorem Frame.news?_of_silent (step : frame.advance self w = some effect)
    (silent : effect.notes.filterMap (Note.event? m) = [])
    (off : frame.isHalfway (.manager m) = false) : frame.news? m = none := by
  cases frame with
  | withdrawal x =>
    simp only [isHalfway, Bool.and_eq_false_iff, decide_eq_false_iff_not] at off
    simp only [news?]
    rw [if_neg fun news => off.elim (absurd news.1) (absurd news.2.1)]
  | entering e =>
    simp only [news?, ite_eq_right_iff, reduceCtorEq, imp_false, not_and]
    intro manager point added
    simp only [advance, Entering.advance, point, added, if_true] at step
    obtain rfl := Option.some.inj step
    simp [List.filterMap_cons, Note.event?, manager] at silent
  | leaving l =>
    simp only [news?, ite_eq_right_iff, reduceCtorEq, imp_false, not_and]
    intro manager point left
    simp only [advance, Leaving.advance, point, left, if_true] at step
    obtain rfl := Option.some.inj step
    simp [List.filterMap_cons, Note.event?, manager] at silent
  | _ => rfl

namespace World

/-- The thread is registered with the manager. -/
def isMember (w : World) (m : ManagerId) (thread : ThreadId) : Bool :=
  (w.registry (.manager m)).contains thread

theorem isMember_of_members
    (members : (v.registry (.manager m)).members = (w.registry (.manager m)).members) :
    v.isMember m thread = w.isMember m thread := by
  unfold isMember Registry.contains
  rw [members]

theorem isMember_eq_false (absent : thread ∉ (w.core m).identities) :
    w.isMember m thread = false :=
  Bool.eq_false_iff.mpr fun member => absent ((Registry.contains_iff _ _).mp member)

@[simp] theorem isMember_setStack (other : ThreadId) (stack : List Frame) :
    (w.setStack other stack).isMember m thread = w.isMember m thread :=
  isMember_of_members rfl

end World

namespace World.Coherent

/-- As long as a thread announces nothing, what it has announced stays what its entry and its news
tell. -/
theorem reflects {inside : Bool} (coherent : w.Coherent m) (stack : w.stack self = frame :: rest)
    (step : frame.advance self w = some effect)
    (silent : effect.notes.filterMap (Note.event? m) = [])
    (reflects : Reflects (w.isMember m self) (frame.news? m) inside) :
    Reflects (effect.world.isMember m self) (newsOf? m (effect.control.stack rest)) inside := by
  have sound : Sound m self (frame :: rest) := stack ▸ coherent.sound self
  cases Frame.enrols (.manager m) step with
  | keeps roll _ off on =>
    rw [World.isMember_of_members (congrArg Prod.fst roll), sound.no_news step off on]
    rwa [Frame.news?_of_silent step silent off] at reflects
  | claims top _ _ world _ control =>
    subst top
    rw [control, World.isMember, world, World.registry_modifyRegistry, if_pos rfl]
    exact reflects
  | @inserts entry top world _ control =>
    subst top
    obtain ⟨x, below, rfl, point⟩ := sound.below_enrolment rfl
    have manager : x.manager = m := sound.tail.1.1
    have own : entry.identity = self := by
      have fits := sound.1
      simp only [Frame.Fits, if_true] at fits
      exact fits.1
    have absent : w.isMember m self = false :=
      World.isMember_eq_false ((coherent.lawful.admits self).halfway (by
        simp [World.scene, World.posture, stack, Frame.posture, Posture.isHalfway]))
    have present : effect.world.isMember m self = true := by
      rw [World.isMember, world, World.registry_modifyRegistry, if_pos rfl]
      simp [Registry.contains, Registry.insert, own]
    rw [absent] at reflects
    rw [present, control]
    have news : newsOf? m ((Control.reply (.truth true)).stack (.entering x :: below)) = some true := by
      simp [Control.stack, Frame.resume, Frame.news?, manager, point]
    rw [news]
    cases reflects
    exact .entered
  | @removes identity before view top present world _ control =>
    subst top
    have own : identity = self := by
      have fits := sound.1
      simp only [Frame.Fits, if_true] at fits
      exact fits.1
    subst own
    have absent : effect.world.isMember m identity = false := by
      rw [World.isMember, world, World.registry_modifyRegistry, if_pos rfl]
      simp [Registry.contains, Registry.remove]
    rw [World.isMember, present] at reflects
    rw [absent, control]
    simp only [Control.stack, newsOf?_cons, Frame.news?] at reflects ⊢
    cases reflects
    exact .left
  | @departs x top registry point roll _ _ =>
    subst top
    obtain ⟨l, below, rfl, announces⟩ := sound.below_withdrawal registry
    have manager : l.manager = m := sound.tail.1.1
    have parties : (w.phaser (.registry x.registry)).parties ≠ 0 := by
      rw [registry]
      exact (stack ▸ coherent.ready self).departs (by simp [Frame.posture, registry, point])
    simp only [Frame.advance, Withdrawal.advance, point, World.depart, parties, if_false] at step
    obtain rfl := Option.some.inj step
    rw [World.isMember_of_members (congrArg Prod.fst roll)]
    have news : newsOf? m ((Control.reply (.registration x.removed)).stack (.leaving l :: below)) =
        (Frame.withdrawal x).news? m := by
      simp [Control.stack, Frame.resume, Frame.news?, manager, announces, registry, point]
    exact news ▸ reflects

/-- Only the thread itself gets in or out, and only by its own steps it comes by news. -/
theorem stays {move : Move} (coherent : w.Coherent m)
    (orderly : ∀ thread, move = .run thread → Orderly m w thread)
    (moves : w.move move = some (v, notes)) (other : move ≠ .run thread) :
    v.isMember m thread = w.isMember m thread ∧
      newsOf? m (v.stack thread) = newsOf? m (w.stack thread) := by
  constructor
  · have found : (v.core m).lookup thread = (w.core m).lookup thread := by
      obtain ⟨-, turns⟩ := coherent.move orderly moves
      change (v.scene m).core.lookup thread = (w.scene m).core.lookup thread
      generalize v.scene m = scene at turns ⊢
      cases turns with
      | @run self _ _ _ turn =>
        rw [turn.core]
        exact Core.lookup_after_of_ne turn.advances fun same => other (same ▸ rfl)
      | idle => rfl
    unfold World.isMember
    rw [Registry.contains_eq_isSome, Registry.contains_eq_isSome]
    exact congrArg Option.isSome found
  · obtain ⟨-, same | ⟨op, idle, told⟩ | ⟨frame, frame', rest, before, after, rouses⟩⟩ :=
      World.move_other moves other
    · rw [same]
    · rw [idle, told]
      rfl
    · rw [before, after]
      cases rouses <;> rfl

end World.Coherent

end

end StopTheWorld
