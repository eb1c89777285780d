import StopTheWorld.Proofs.PauseCall
import StopTheWorld.Proofs.Registering

namespace StopTheWorld

/-! What goes on above a procedure that waits, on a thread that is registered without a record. No
user code runs there but callbacks, and nothing is told of the thread coming or going, or of a pause
of its own. -/

/-- The note tells of a thread that registers or deregisters, drives a pause, or runs the action of
one. -/
def Note.isOfStay (m : ManagerId) : Note → Bool
  | registered phaser | departed phaser => phaser = .registry (.manager m)
  | inserted registry _ | removed registry _ => registry = .manager m
  | published n _ | invalidated n _ | action n _ _ => n = m
  | joined n drives | finished n drives => n = m && drives
  | _ => false

/-- A frame by which a thread without a record waits for a lock, joins a pause, or wakes others. -/
def Frame.IsMute : Frame → Prop
  | polling p => p.record = none ∧ p.outcome = none
  | resuming r => r.record = none ∧ r.outcome = none
  | phases p => p.record = none ∧ p.outcome = none
  | acquisition _ | release _ _ | notify _ | arrival _ | visit _ => True
  | _ => False

/-- The frames that come and go above a procedure that waits. -/
inductive Mute : List Frame → Prop
  | plain {above : List Frame} (mute : ∀ frame ∈ above, frame.IsMute) : Mute above
  /-- A visit runs a callback. -/
  | calls {callback above : List Frame} {i : Interruption} {v : Visit}
      (mute : ∀ frame ∈ above, frame.IsMute) :
      Mute (callback ++ .interruption i :: .visit v :: above)

/-- A procedure that waits for something else takes no notice of the reply. -/
def Reply.isMild : Reply → Bool
  | truth _ | registration _ | unwound _ => false
  | _ => true

/-- What a step makes of such a frame. -/
inductive Control.Mutes (frame : Frame) : Control → Prop
  | goto {next : Frame} (mute : next.IsMute) : Mutes frame (.goto next)
  | call {child back : Frame} (mute : child.IsMute) (kept : back.IsMute) :
      Mutes frame (.call child back)
  | interrupts {i : Interruption} {v : Visit} : Mutes frame (.call (.interruption i) (.visit v))
  | reply {value : Reply} (mild : value.isMild = true)
      (fails : ∀ failure, value = .failed failure → ∃ a, frame = .acquisition a) :
      Mutes frame (.reply value)

section

variable {m : ManagerId} {self : ThreadId} {w v : World} {frame top : Frame}
  {rest above below : List Frame} {effect : Effect} {notes : List Note}

theorem Note.tellsOf_of_isOfStay {note : Note} (stays : note.isOfStay m = true) :
    note.tellsOf m = true := by
  cases note <;> simp_all [isOfStay, tellsOf]

theorem Silent.filter_isOfStay (silent : Silent m notes) : notes.filter (·.isOfStay m) = [] :=
  List.filter_eq_nil_iff.mpr fun note mem stays =>
    Bool.false_ne_true ((silent note mem).symm.trans (Note.tellsOf_of_isOfStay stays))

/-- Of what a step tells, the deed tells as much of a stay. -/
theorem filter_isOfStay_filter_tellsOf :
    (notes.filter (·.tellsOf m)).filter (·.isOfStay m) = notes.filter (·.isOfStay m) := by
  rw [List.filter_filter]
  congr 1
  funext note
  cases stays : note.isOfStay m with
  | false => rfl
  | true => simp [Note.tellsOf_of_isOfStay stays]

namespace Frame

/-- What a frame makes of a reply does not make user code of it. -/
theorem IsMute.resume {value : Reply} (mute : frame.IsMute) (mild : value.isMild = true) :
    (frame.resume value).IsMute := by
  cases frame with
  | polling | resuming | phases => cases value <;> first | exact mute | simp [Reply.isMild] at mild
  | acquisition | release | notify | arrival | visit => exact trivial
  | _ => exact mute.elim

/-- A thread without a record goes through a pause without telling of a stay. -/
theorem IsMute.goes (mute : frame.IsMute) (fits : frame.Fits m self rest)
    (unrecorded : ∀ entry, (w.core m).lookup self = some entry → entry.record = none)
    (step : frame.advance self w = some effect) :
    effect.notes.filter (·.isOfStay m) = [] ∧ effect.control.Mutes frame := by
  cases frame with
  | acquisition a =>
    simp only [advance, Acquisition.advance, Acquisition.took, Acquisition.gaveUp] at step
    repeat' split at step
    all_goals first
      | simp at step
      | obtain rfl := Option.some.inj step
        refine ⟨by simp [Note.isOfStay], ?_⟩
    all_goals first
      | exact .goto trivial
      | exact .reply rfl fun _ _ => ⟨_, rfl⟩
  | release lock point =>
    simp only [advance, Release.advance] at step
    repeat' split at step
    all_goals first
      | simp at step
      | obtain rfl := Option.some.inj step
        refine ⟨by simp [Note.isOfStay], ?_⟩
    · exact .goto trivial
    · exact .reply rfl (by simp)
  | notify lock =>
    simp only [advance, OwnedLock.advanceNotify] at step
    split at step
    · obtain rfl := Option.some.inj step
      exact ⟨rfl, .reply rfl (by simp)⟩
    · simp at step
  | arrival a =>
    simp only [advance, Arrival.advance] at step
    repeat' split at step
    all_goals first
      | simp at step
      | obtain rfl := Option.some.inj step
        refine ⟨by simp [Note.isOfStay], ?_⟩
    · exact .reply rfl (by simp)
    · exact .goto trivial
    · exact .reply rfl (by simp)
  | visit x =>
    simp only [advance, Visit.advance] at step
    repeat' split at step
    all_goals
      obtain rfl := Option.some.inj step
      refine ⟨rfl, ?_⟩
    case h_3.isTrue.isTrue => exact .interrupts
    case h_5 => exact absurd ‹_› (fits.1 _ _)
    all_goals first
      | exact .goto trivial
      | exact .reply rfl (by simp)
  | phases p =>
    obtain ⟨record, outcome⟩ := mute
    simp only [advance, Phases.advance, record, outcome] at step
    split at step
    all_goals
      obtain rfl := Option.some.inj step
      refine ⟨by simp [Note.isOfStay], ?_⟩
    all_goals first
      | exact .call trivial ⟨rfl, rfl⟩
      | exact .goto ⟨rfl, rfl⟩
      | exact .reply rfl (by simp)
  | resuming r =>
    obtain ⟨record, outcome⟩ := mute
    simp only [advance, Resuming.advance, record, outcome] at step
    split at step
    · split at step <;> obtain rfl := Option.some.inj step
      · exact ⟨rfl, .call trivial ⟨rfl, rfl⟩⟩
      · exact ⟨rfl, .goto ⟨rfl, rfl⟩⟩
    · obtain rfl := Option.some.inj step
      exact ⟨rfl, .reply rfl (by simp)⟩
    · obtain rfl := Option.some.inj step
      refine ⟨?_, .reply rfl (by simp)⟩
      dsimp only
      split <;> simp [Note.isOfStay]
  | polling p =>
    obtain ⟨record, outcome⟩ := mute
    obtain ⟨rfl, -⟩ := fits
    cases point : p.point <;> simp only [advance, Polling.advance, point] at step
    case check =>
      split at step <;> obtain rfl := Option.some.inj step
      · exact ⟨rfl, .reply rfl (by simp)⟩
      · exact ⟨rfl, .goto ⟨record, outcome⟩⟩
    case lookup =>
      split at step <;> rename_i found <;> obtain rfl := Option.some.inj step
      · exact ⟨rfl, .reply rfl (by simp)⟩
      · exact ⟨rfl, .goto ⟨unrecorded _ found, outcome⟩⟩
    case leaveGlobal =>
      obtain ⟨⟨u, told⟩, leaves, goto⟩ := Option.bind_eq_some_iff.mp step
      obtain rfl := Option.some.inj goto
      exact ⟨(World.Agrees.leaveGlobal leaves).2.filter_isOfStay, .goto ⟨record, outcome⟩⟩
    case count =>
      obtain rfl := Option.some.inj step
      exact ⟨rfl, .goto ⟨record, outcome⟩⟩
    case enterPhases =>
      obtain rfl := Option.some.inj step
      exact ⟨by simp [Note.isOfStay], .call ⟨record, rfl⟩ ⟨record, outcome⟩⟩
    case exitPhases =>
      obtain rfl := Option.some.inj step
      exact ⟨by simp [Note.isOfStay], .goto ⟨record, outcome⟩⟩
  | _ => exact mute.elim

end Frame

/-- No procedure of the manager runs within a callback. -/
theorem Sound.idle_of_callback (sound : Sound m self (frame :: rest))
    (inside : inCallback rest = true) : frame.isIdle m = true := by
  have busy {stack : List Frame} (calls : inCallback stack = true) :
      ¬ Quiet m stack ∧ ¬ Acting m stack :=
    ⟨fun quiet => Bool.false_ne_true (quiet.free.symm.trans calls),
      fun acting => Bool.false_ne_true (acting.free.symm.trans calls)⟩
  have below {parent : Frame} {stack : List Frame} (same : rest = parent :: stack)
      (own : parent.isInterruption = false) : ¬ Quiet m stack ∧ ¬ Acting m stack :=
    busy (by simpa [same, own] using inside)
  cases frame with
  | acquisition a =>
    refine decide_eq_true fun lock => ?_
    have tail := sound.tail
    obtain ⟨p, stack, rfl, -⟩ | ⟨e, stack, rfl, -⟩ := sound.below_acquisition lock
    · exact tail.1.2.2.elim (below rfl rfl).1 fun acting => (below rfl rfl).2 acting.2
    · exact tail.1.2.1.elim (below rfl rfl).1 fun acting => (below rfl rfl).2 acting.2
  | release lock point =>
    refine decide_eq_true fun pause => (busy inside).1 ?_
    simpa [Frame.Fits, pause] using sound.1
  | arrival a =>
    refine decide_eq_true fun phaser => ?_
    obtain ⟨p, stack, rfl, -⟩ := sound.below_arrival phaser
    have tail := sound.tail.tail
    have inside : inCallback stack = true := by simpa [Frame.isInterruption] using inside
    obtain ⟨q, stack', rfl, -⟩ | ⟨q, stack', rfl, -⟩ := sound.tail.below_phases <;>
      have inside : inCallback stack' = true := by simpa [Frame.isInterruption] using inside
    · exact tail.1.2.elim (busy inside).1 fun acting => (busy inside).2 acting.2
    · exact tail.1.2.2.elim (busy inside).1 fun acting => (busy inside).2 acting.2
  | enrolment x =>
    refine decide_eq_true fun registry => ?_
    have tail := sound.tail
    obtain ⟨e, stack, rfl, -⟩ := sound.below_enrolment registry
    exact tail.1.2.1.elim (below rfl rfl).1 fun acting => (below rfl rfl).2 acting.2
  | withdrawal x =>
    refine decide_eq_true fun registry => ?_
    have tail := sound.tail
    obtain ⟨l, stack, rfl, -⟩ := sound.below_withdrawal registry
    exact tail.1.2.1.elim (below rfl rfl).1 fun acting => (below rfl rfl).2 acting.2
  | phases p =>
    have tail := sound.tail
    obtain ⟨q, stack, rfl, -⟩ | ⟨q, stack, rfl, -⟩ := sound.below_phases
    · exact (tail.1.2.elim (below rfl rfl).1 fun acting => (below rfl rfl).2 acting.2).elim
    · exact (tail.1.2.2.elim (below rfl rfl).1 fun acting => (below rfl rfl).2 acting.2).elim
  | polling p => exact (sound.1.2.elim (busy inside).1 fun acting => (busy inside).2 acting.2).elim
  | entering e => exact (sound.1.2.1.elim (busy inside).1 fun acting => (busy inside).2 acting.2).elim
  | leaving l => exact (sound.1.2.1.elim (busy inside).1 fun acting => (busy inside).2 acting.2).elim
  | pausing p => exact (sound.1.2.2.elim (busy inside).1 fun acting => (busy inside).2 acting.2).elim
  | _ => rfl

/-- A step of what goes on above leaves what is below as it is, or replies to it; it tells nothing of a
stay. -/
theorem Mute.step (mute : Mute (top :: above)) (coherent : w.Coherent m) (orderly : Orderly m w self)
    (stack : w.stack self = top :: (above ++ rest))
    (unrecorded : ∀ entry, (w.core m).lookup self = some entry → entry.record = none)
    (step : top.advance self w = some effect) :
    effect.notes.filter (·.isOfStay m) = [] ∧
      ((∃ above', effect.control.stack (above ++ rest) = above' ++ rest ∧ Mute above') ∨
        above = [] ∧ ∃ value, effect.control = .reply value ∧ value.isMild = true ∧
          ∀ failure, value = .failed failure → ∃ a, top = .acquisition a) := by
  have ready := coherent.ready self
  rw [stack] at ready
  generalize whole : top :: above = frames at mute
  cases mute with
  | plain mute =>
    subst whole
    obtain ⟨here, mute⟩ := List.forall_mem_cons.mp mute
    obtain ⟨silent, mutes⟩ := here.goes ready.sound.1 unrecorded step
    refine ⟨silent, ?_⟩
    generalize effect.control = control at mutes
    cases mutes with
    | @goto next here => exact .inl ⟨next :: above, rfl, .plain (List.forall_mem_cons.mpr ⟨here, mute⟩)⟩
    | @call child back here kept =>
      exact .inl ⟨child :: back :: above, rfl,
        .plain (List.forall_mem_cons.mpr ⟨here, List.forall_mem_cons.mpr ⟨kept, mute⟩⟩)⟩
    | @interrupts i v => exact .inl ⟨[] ++ .interruption i :: .visit v :: above, rfl, .calls mute⟩
    | @reply value mild fails =>
      cases above with
      | nil => exact .inr ⟨rfl, value, rfl, mild, fails⟩
      | cons next above =>
        obtain ⟨next_mute, mute⟩ := List.forall_mem_cons.mp mute
        exact .inl ⟨next.resume value :: above, rfl,
          .plain (List.forall_mem_cons.mpr ⟨next_mute.resume mild, mute⟩)⟩
  | @calls callback below i x mute =>
    have still (idle : top.isIdle m = true) : effect.notes.filter (·.isOfStay m) = [] := by
      have performs := Frame.performs_nothing ready orderly stack idle step
      have told : effect.notes.filter (·.tellsOf m) = [] := performs.notes
      rw [← filter_isOfStay_filter_tellsOf, told]
      rfl
    cases callback with
    | nil =>
      obtain ⟨rfl, rfl⟩ := List.cons.inj whole
      refine ⟨still rfl, .inl ?_⟩
      simp only [Frame.advance, Interruption.advance] at step
      repeat' split at step
      all_goals obtain rfl := Option.some.inj step
      · exact ⟨[] ++ .interruption _ :: .visit x :: below, rfl, .calls mute⟩
      · exact ⟨[] ++ .interruption _ :: .visit x :: below, rfl, .calls mute⟩
      · exact ⟨[_] ++ .interruption _ :: .visit x :: below, rfl, .calls mute⟩
      · exact ⟨[_] ++ .interruption _ :: .visit x :: below, rfl, .calls mute⟩
      · exact ⟨.visit x :: below, rfl, .plain (List.forall_mem_cons.mpr ⟨trivial, mute⟩)⟩
    | cons first callback =>
      obtain ⟨rfl, rfl⟩ := List.cons.inj (whole.trans (List.cons_append ..))
      have split : (callback ++ .interruption i :: .visit x :: below) ++ rest =
          callback ++ .interruption i :: (.visit x :: below ++ rest) := by simp
      have inside : inCallback ((callback ++ .interruption i :: .visit x :: below) ++ rest) = true := by
        simp [inCallback, Frame.isInterruption]
      refine ⟨still (ready.sound.idle_of_callback inside), .inl ?_⟩
      rw [split]
      obtain ⟨above', same⟩ | ⟨rfl, value, -, same⟩ | ⟨message, unwinds, -⟩ :=
        effect.control.stack_append callback (.interruption i) (.visit x :: below ++ rest)
      · exact ⟨above' ++ .interruption i :: .visit x :: below, same.trans (by simp), .calls mute⟩
      · exact ⟨[] ++ .interruption i :: .visit x :: below, same.trans rfl, .calls mute⟩
      · exact absurd unwinds (orderly.steady stack inside step message)

/-- A waiter of a callback can be roused, and nobody else. -/
theorem Mute.rouse {frame' : Frame} (mute : Mute (top :: above)) (rouses : top.Rouses frame') :
    Mute (frame' :: above) := by
  generalize whole : top :: above = frames at mute
  cases mute with
  | plain mute =>
    subst whole
    obtain ⟨here, -⟩ := List.forall_mem_cons.mp mute
    cases rouses <;> exact here.elim
  | @calls callback below i x mute =>
    cases callback with
    | nil =>
      obtain ⟨rfl, rfl⟩ := List.cons.inj whole
      cases rouses
    | cons first callback =>
      obtain ⟨rfl, rfl⟩ := List.cons.inj whole
      exact @Mute.calls (frame' :: callback) _ _ _ mute

end

end StopTheWorld
