import StopTheWorld.Proofs.Calls
import StopTheWorld.Proofs.Course

namespace StopTheWorld

/-! The invariant of a world, as far as the pauses of a manager go, and what every move makes of the
scene. -/

structure World.Coherent (m : ManagerId) (w : World) : Prop where
  sound : ∀ thread, Sound m thread (w.stack thread)
  mark : ∀ thread, (w.thread thread).inPause = isMarked (w.stack thread)
  bonded : ∀ thread, ∀ record ∈ bonds (w.stack thread),
    ∃ entry, (w.core m).lookup thread = some entry ∧ entry.record = record
  lawful : (w.scene m).Lawful

/-- The frame is none of a procedure of the manager that does something to it. -/
def Frame.isIdle (m : ManagerId) : Frame → Bool
  | acquisition a => a.lock ≠ .pause m
  | release lock _ => lock ≠ .pause m
  | arrival a => a.phaser ≠ .registry (.manager m)
  | enrolment e => e.registry ≠ .manager m
  | withdrawal x => x.registry ≠ .manager m
  | phases _ | polling _ | entering _ | leaving _ | pausing _ => false
  | _ => true

/-- What a move makes of a scene. -/
inductive Scene.Turns (m : ManagerId) (s : Scene) : Move → List Note → Scene → Prop
  | run {thread : ThreadId} {deed : Deed} {notes : List Note} {s' : Scene}
      (moves : s.Moves thread deed s')
      (told : notes.filter (·.tellsOf m) = s.core.notes m thread deed) :
      Turns m s (.run thread) notes s'
  | idle {move : Move} {notes : List Note} (idle : ∀ thread, move ≠ .run thread) :
      Turns m s move notes s

section

variable {m : ManagerId} {self : ThreadId} {w v : World} {frame : Frame} {rest : List Frame}
  {effect : Effect}

theorem World.Coherent.ready (coherent : w.Coherent m) (thread : ThreadId) :
    Ready m thread w (w.stack thread) where
  sound := coherent.sound thread
  mark := coherent.mark thread
  bonded := coherent.bonded thread
  admits := coherent.lawful.admits thread
  departs departing := by
    obtain ⟨parties, card, mem⟩ := coherent.lawful.parties
    have here : thread ∈ parties := by
      refine (mem thread).mpr (.inr ?_)
      show (StopTheWorld.posture m (w.stack thread)).isHalfway = true
      rw [departing]
      rfl
    have positive := Finset.card_pos.mpr ⟨thread, here⟩
    rw [card] at positive
    exact Nat.ne_of_gt positive
  stale := coherent.lawful.phase_of_stale

/-- The step of such a frame does nothing to the manager. -/
theorem Frame.performs_nothing (ready : Ready m self w (frame :: rest)) (orderly : Orderly m w self)
    (stack : w.stack self = frame :: rest) (idle : frame.isIdle m = true)
    (step : frame.advance self w = some effect) : effect.Performs m self w frame rest .nothing := by
  have steady : effect.IsSteady rest := fun inside => orderly.steady stack inside step
  cases frame with
  | start op =>
    exact Op.performs ready (orderly.single stack) (orderly.callbacks stack)
      (fun leave => orderly.stays (leave ▸ stack)) steady step
  | answer reply =>
    obtain rfl := Option.some.inj step
    exact performs_answer ready
  | discard | word | keepGuard =>
    obtain rfl := Option.some.inj step
    exact .plain ready rfl ready.sound.1 steady ⟨rfl, fun _ => rfl, fun _ => rfl⟩ (by simp)
      (.inl ⟨_, rfl⟩)
  | rethrow message =>
    obtain rfl := Option.some.inj step
    exact .plain ready rfl ready.sound.1 steady (.refl w) (by simp) (.inr ⟨_, rfl⟩)
  | acquisition a => exact a.performs_other ready (of_decide_eq_true idle) step
  | release lock point => exact Release.performs_other ready (of_decide_eq_true idle) step
  | notify lock => exact OwnedLock.performsNotify ready step
  | arrival a => exact a.performs_other ready (of_decide_eq_true idle) step
  | interruption i => exact i.performs ready step
  | sleeping s => exact s.performs ready steady step
  | parking point => exact Parking.performs ready steady step
  | enrolment e => exact e.performs_other ready (of_decide_eq_true idle) step
  | withdrawal x => exact x.performs_other ready steady (of_decide_eq_true idle) step
  | visit v => exact v.performs ready step
  | script s => exact s.performs ready step
  | sequence s => exact s.performs ready step
  | drain d => exact d.performs ready step
  | resuming r => exact r.performs ready step
  | foreign f => exact f.performs ready step
  | acquiring a => exact a.performs ready step
  | blocking b => exact b.performs ready step
  | trial t => exact t.performs ready steady step
  | phases | polling | entering | leaving | pausing => simp [isIdle] at idle

/-- Every step is a deed of the protocol. -/
theorem Frame.performs (ready : Ready m self w (frame :: rest)) (orderly : Orderly m w self)
    (stack : w.stack self = frame :: rest) (step : frame.advance self w = some effect) :
    ∃ deed, effect.Performs m self w frame rest deed := by
  cases idle : frame.isIdle m with
  | true => exact ⟨_, performs_nothing ready orderly stack idle step⟩
  | false =>
    cases frame with
    | acquisition a => exact a.performs ready (by simpa [isIdle] using idle) step
    | release lock point => exact Release.performs ready (by simpa [isIdle] using idle) step
    | arrival a => exact a.performs ready (by simpa [isIdle] using idle) step
    | enrolment e => exact e.performs ready (by simpa [isIdle] using idle) step
    | withdrawal x => exact x.performs ready (by simpa [isIdle] using idle) step
    | phases p => exact p.performs ready step
    | polling p => exact p.performs ready step
    | entering e => exact e.performs ready step
    | leaving l => exact l.performs ready step
    | pausing p => exact p.performs ready step
    | _ => simp [isIdle] at idle

theorem Core.lookup_after_of_ne {core : Core} {thread other : ThreadId} {before after : Posture}
    {deed : Deed} (advances : Advances core thread before deed after) (ne : other ≠ thread) :
    (core.after thread deed).lookup other = core.lookup other := by
  cases advances with
  | insert own =>
    simp only [Core.after, Core.lookup, List.find?_append, List.find?_cons, List.find?_nil, own]
    simp [ne.symm]
  | remove =>
    simp only [Core.after, Core.lookup, List.find?_filter]
    congr 1
    funext entry
    by_cases same : entry.identity = other <;> simp [same, ne]
  | _ => rfl

theorem Core.lookup_after_of_some {core : Core} {thread : ThreadId} {before after : Posture}
    {deed : Deed} {entry : Registration} (advances : Advances core thread before deed after)
    (found : core.lookup thread = some entry) (stays : deed ≠ .remove) :
    (core.after thread deed).lookup thread = some entry := by
  cases advances with
  | insert own =>
    simp only [Core.lookup] at found
    simp [Core.after, Core.lookup, List.find?_append, found]
  | remove => exact absurd rfl stays
  | _ => exact found

@[simp] theorem World.stack_setStack (w : World) (thread other : ThreadId) (stack : List Frame) :
    (w.setStack thread stack).stack other = if other = thread then stack else w.stack other := by
  unfold World.stack
  rw [World.thread_setStack]
  split <;> rfl

@[simp] theorem World.inPause_setStack (w : World) (thread other : ThreadId) (stack : List Frame) :
    ((w.setStack thread stack).thread other).inPause = (w.thread other).inPause := by
  rw [World.thread_setStack]
  split
  · rename_i same
    rw [same]
  · rfl

theorem World.step_eq_some {notes : List Note} (step : w.step self = some (v, notes)) :
    ∃ frame rest effect, w.stack self = frame :: rest ∧ frame.advance self w = some effect ∧
      v = effect.world.setStack self (effect.control.stack rest) ∧
      notes = effect.notes ++ effect.control.completion rest := by
  unfold World.step at step
  split at step
  · simp at step
  · rename_i frame rest stack
    obtain ⟨effect, advance, same⟩ := Option.map_eq_some_iff.mp step
    obtain ⟨rfl, rfl⟩ := Prod.mk.inj same
    exact ⟨frame, rest, effect, stack, advance, rfl, rfl⟩

/-- Beyond the notes of its effect, a step tells only that the thread's operation is completed. -/
theorem Control.completed_of_mem {control : Control} {rest : List Frame} {note : Note}
    (mem : note ∈ control.completion rest) : ∃ value, note = .completed value := by
  unfold Control.completion at mem
  repeat' split at mem
  all_goals first
    | exact ⟨_, List.mem_singleton.mp mem⟩
    | simp at mem

theorem Effect.told {effect : Effect} {rest : List Frame} {note : Note}
    (mem : note ∈ effect.notes ++ effect.control.completion rest)
    (other : ∀ value, note ≠ .completed value) : note ∈ effect.notes :=
  (List.mem_append.mp mem).resolve_right fun completed =>
    (Control.completed_of_mem completed).elim other

theorem World.move_of_advance {frame : Frame} {rest : List Frame} {effect : Effect}
    (stack : w.stack self = frame :: rest)
    (step : frame.advance self w = some effect) :
    w.move (.run self) = some (effect.world.setStack self (effect.control.stack rest),
      effect.notes ++ effect.control.completion rest) := by
  have top : (w.thread self).stack = frame :: rest := stack
  simp only [World.move, World.step, top, step, Option.map_some]

/-- A step keeps the invariant, and is a deed of the thread that takes it. -/
theorem World.Coherent.step {notes : List Note} (coherent : w.Coherent m)
    (orderly : Orderly m w self) (step : w.step self = some (v, notes)) :
    v.Coherent m ∧ ∃ deed, (w.scene m).Moves self deed (v.scene m) ∧
      notes.filter (·.tellsOf m) = (w.core m).notes m self deed := by
  have ready := coherent.ready self
  obtain ⟨frame, rest, effect, stack, advance, rfl, rfl⟩ := World.step_eq_some step
  rw [stack] at ready
  obtain ⟨deed, performs⟩ := Frame.performs ready orderly stack advance
  have core : (effect.world.setStack self (effect.control.stack rest)).core m =
      (w.core m).after self deed := performs.core
  have moves : (w.scene m).Moves self deed
      ((effect.world.setStack self (effect.control.stack rest)).scene m) := by
    refine ⟨?_, core, fun other ne => ?_⟩
    · simpa [World.scene, World.posture, stack] using performs.advances
    · simp [World.scene, World.posture, ne, performs.stack]
  refine ⟨⟨fun thread => ?_, fun thread => ?_, fun thread record mem => ?_,
    coherent.lawful.preserved moves⟩, deed, moves, ?_⟩
  · by_cases same : thread = self
    · simpa [same] using performs.sound
    · simpa [same, performs.stack] using coherent.sound thread
  · by_cases same : thread = self
    · simpa [same] using performs.mark
    · simpa [same, performs.stack, performs.others thread same] using coherent.mark thread
  · rw [core]
    by_cases same : thread = self
    · subst same
      simp only [World.stack_setStack, if_true] at mem
      by_cases leaves : deed = .remove
      · simp [performs.leaves leaves] at mem
      · have there : ∃ entry, (w.core m).lookup thread = some entry ∧ entry.record = record :=
          (performs.bonded record mem).elim (ready.bonded record) id
        obtain ⟨entry, found, bound⟩ := there
        exact ⟨entry, Core.lookup_after_of_some performs.advances found leaves, bound⟩
    · simp only [World.stack_setStack, same, if_false, performs.stack] at mem
      rw [Core.lookup_after_of_ne performs.advances same]
      exact coherent.bonded thread record mem
  · rw [List.filter_append, performs.notes]
    have silent : Silent m (effect.control.completion rest) := fun note mem => by
      obtain ⟨value, rfl⟩ := Control.completed_of_mem mem
      rfl
    rw [silent.filter, List.append_nil]

/-- What a step tells of the manager is told by its deed. -/
theorem World.Coherent.step_telling {notes : List Note} {note : Note} (coherent : w.Coherent m)
    (orderly : Orderly m w self) (step : w.step self = some (v, notes)) (mem : note ∈ notes)
    (tells : note.tellsOf m = true) :
    v.Coherent m ∧ ∃ deed, (w.scene m).Moves self deed (v.scene m) ∧
      notes.filter (·.tellsOf m) = (w.core m).notes m self deed ∧
      note ∈ (w.core m).notes m self deed := by
  obtain ⟨coherent, deed, moves, told⟩ := coherent.step orderly step
  exact ⟨coherent, deed, moves, told, told ▸ List.mem_filter.mpr ⟨mem, tells⟩⟩

theorem World.Coherent.stack_other {notes : List Note} {other : ThreadId} (coherent : w.Coherent m)
    (orderly : Orderly m w self) (step : w.step self = some (v, notes)) (ne : other ≠ self) :
    v.stack other = w.stack other := by
  have ready := coherent.ready self
  obtain ⟨frame, rest, effect, stack, advance, rfl, rfl⟩ := World.step_eq_some step
  rw [stack] at ready
  obtain ⟨deed, performs⟩ := Frame.performs ready orderly stack advance
  simp [ne, performs.stack]

theorem World.Coherent.transfer (coherent : w.Coherent m) (core : v.core m = w.core m)
    (inPause : ∀ thread, (v.thread thread).inPause = (w.thread thread).inPause)
    (follows : ∀ thread, Follows m thread (w.stack thread) (v.stack thread)) :
    v.Coherent m ∧ v.scene m = w.scene m := by
  have scene : v.scene m = w.scene m := by
    unfold World.scene World.posture
    rw [core]
    congr 1
    funext thread
    exact (follows thread).posture
  refine ⟨⟨fun thread => (follows thread).sound, fun thread => ?_, fun thread record mem => ?_,
    scene ▸ coherent.lawful⟩, scene⟩
  · rw [inPause, coherent.mark, (follows thread).marks]
  · rw [core]
    exact coherent.bonded thread record ((follows thread).bonds mem)

theorem World.Coherent.setStack (coherent : w.Coherent m) {stack : List Frame}
    (follows : Follows m self (w.stack self) stack) :
    (w.setStack self stack).Coherent m ∧ (w.setStack self stack).scene m = w.scene m := by
  refine coherent.transfer rfl (by simp) fun thread => ?_
  by_cases same : thread = self
  · simpa [same] using follows
  · simpa [same] using .refl (coherent.sound thread)

theorem World.Coherent.submit {op : Op} (coherent : w.Coherent m)
    (submit : w.submit self op = some v) : v.Coherent m ∧ v.scene m = w.scene m := by
  unfold World.submit at submit
  split at submit
  · rename_i idle
    obtain rfl := Option.some.inj submit
    have empty : w.stack self = [] := List.isEmpty_iff.mp idle
    have ground : Ground m [] := .inl (.inl ⟨rfl, rfl, rfl⟩)
    refine coherent.setStack ⟨⟨ground, rfl, trivial⟩, ?_, ?_, by simp [Frame.bond?]⟩ <;> rw [empty] <;>
      rfl
  · simp at submit

theorem World.Coherent.rouse (coherent : w.Coherent m) (thread : ThreadId) :
    (w.rouse thread).Coherent m ∧ (w.rouse thread).scene m = w.scene m := by
  have kept : ∀ other, Follows m other (w.stack other) (w.stack other) :=
    fun other => .refl (coherent.sound other)
  have sound := coherent.sound thread
  unfold World.rouse
  split
  · rename_i a _ stack
    have agrees : w.Agrees m (w.modifyLock a.lock (·.rouse thread)) := .modifyLock w _ fun _ => rfl
    exact coherent.transfer agrees.core agrees.inPause fun other => agrees.stack other ▸ kept other
  · rename_i rest stack
    have stack : w.stack thread = .parking .parked :: rest := stack
    rw [stack] at sound
    refine coherent.setStack ?_
    rw [stack]
    exact .goto sound sound.1 (sound.2.1.exchange rfl rfl) rfl rfl (.inl rfl)
  · rename_i s rest stack
    have stack : w.stack thread = .sleeping s :: rest := stack
    rw [stack] at sound
    split
    · refine coherent.setStack ?_
      rw [stack]
      exact .goto sound sound.1 (sound.2.1.exchange rfl rfl) rfl rfl (.inl rfl)
    · exact ⟨coherent, rfl⟩
  · exact ⟨coherent, rfl⟩

/-- Every move keeps the invariant, and turns the scene. -/
theorem World.Coherent.move {move : Move} {notes : List Note} (coherent : w.Coherent m)
    (orderly : ∀ thread, move = .run thread → Orderly m w thread)
    (moves : w.move move = some (v, notes)) :
    v.Coherent m ∧ (w.scene m).Turns m move notes (v.scene m) := by
  cases move with
  | run thread =>
    obtain ⟨coherent, deed, moves, told⟩ := coherent.step (orderly thread rfl) moves
    exact ⟨coherent, .run moves told⟩
  | submit thread op =>
    obtain ⟨u, submit, same⟩ := Option.map_eq_some_iff.mp moves
    obtain ⟨rfl, rfl⟩ := Prod.mk.inj same
    obtain ⟨coherent, scene⟩ := coherent.submit submit
    exact ⟨coherent, scene ▸ .idle (by simp)⟩
  | elapse span =>
    obtain ⟨rfl, rfl⟩ := Prod.mk.inj (Option.some.inj moves)
    obtain ⟨coherent, scene⟩ := coherent.transfer (v := w.elapse span) rfl (fun _ => rfl)
      fun thread => .refl (coherent.sound thread)
    exact ⟨coherent, scene ▸ .idle (by simp)⟩
  | rouse thread =>
    obtain ⟨rfl, rfl⟩ := Prod.mk.inj (Option.some.inj moves)
    obtain ⟨coherent, scene⟩ := coherent.rouse thread
    exact ⟨coherent, scene ▸ .idle (by simp)⟩

/-- What others do leaves the entry of a thread as it is. -/
theorem World.Coherent.lookup_other {move : Move} (coherent : w.Coherent m)
    (orderly : ∀ thread, move = .run thread → Orderly m w thread)
    (moves : w.move move = some (v, notes)) (other : move ≠ .run self) :
    (v.core m).lookup self = (w.core m).lookup self := by
  obtain ⟨-, turns⟩ := coherent.move orderly moves
  show (v.scene m).core.lookup self = _
  generalize v.scene m = after at turns
  cases turns with
  | @run thread deed _ _ moves =>
    have ne : self ≠ thread := fun same => other (same ▸ rfl)
    rw [moves.core]
    exact Core.lookup_after_of_ne moves.advances ne
  | idle => rfl

theorem World.Coherent.telling {move : Move} {notes : List Note} {note : Note}
    (coherent : w.Coherent m) (orderly : ∀ thread, move = .run thread → Orderly m w thread)
    (moves : w.move move = some (v, notes)) (mem : note ∈ notes) (tells : note.tellsOf m = true) :
    ∃ thread deed, move = .run thread ∧ (w.scene m).Moves thread deed (v.scene m) ∧
      note ∈ (w.core m).notes m thread deed := by
  cases move with
  | run thread =>
    obtain ⟨-, deed, moves, -, noted⟩ := coherent.step_telling (orderly thread rfl) moves mem tells
    exact ⟨thread, deed, rfl, moves, noted⟩
  | submit thread op =>
    obtain ⟨u, -, same⟩ := Option.map_eq_some_iff.mp moves
    obtain ⟨-, rfl⟩ := Prod.mk.inj same
    simp at mem
  | elapse span =>
    obtain ⟨-, rfl⟩ := Prod.mk.inj (Option.some.inj moves)
    simp at mem
  | rouse thread =>
    obtain ⟨-, rfl⟩ := Prod.mk.inj (Option.some.inj moves)
    simp at mem

theorem World.IsFresh.coherent (fresh : w.IsFresh m) : w.Coherent m := by
  have outside (thread : ThreadId) : (w.scene m).posture thread = .outside := by
    simp [World.scene, World.posture, fresh.idle]
  have core : (w.scene m).core = ⟨.first, none, none, 0, [], {}⟩ := by
    simp [World.scene, World.core, Manager.core, fresh.new.epoch, fresh.new.registry,
      fresh.new.pauseLock, fresh.new.action, fresh.new.statistics]
  have rests : (w.scene m).core.Rests := by
    rw [core]
    exact ⟨rfl, rfl, rfl, rfl⟩
  refine ⟨fun thread => by rw [fresh.idle]; trivial, fun thread => by
    rw [fresh.idle, fresh.unmarked]; rfl, fun thread record mem => by simp [fresh.idle] at mem,
    ⟨fun thread => ?_, fun _ => rests, ?_, ⟨∅, ?_, fun thread => ?_⟩, ⟨∅, ?_, fun thread => ?_⟩⟩⟩
  · rw [outside, core]
    exact .of_free (by simp) rfl rfl (by simp [Posture.isHalfway]) (by simp) (by simp)
  · simp [core, Core.identities]
  · rw [core]
    rfl
  · simp [Scene.Counts, outside, core, Core.identities, Posture.isHalfway]
  · rw [core]
    rfl
  · simp [outside, Posture.hasArrived]

theorem Course.coherent {moments : List Moment} (course : Course (Orderly m) w moments v)
    (coherent : w.Coherent m) : v.Coherent m :=
  course.keeps (fun coherent orderly moves => (coherent.move orderly moves).1) coherent

/-- What was told of the manager, and by whose steps. -/
def told (m : ManagerId) (moments : List Moment) : List (ThreadId × Note) :=
  (observations moments).filter (·.2.tellsOf m)

@[simp] theorem told_append (first second : List Moment) :
    told m (first ++ second) = told m first ++ told m second := by
  simp [told]

/-- Of what was told, a check that only notes of the manager pass finds what it finds of all that was
observed. -/
theorem told_filter {check : ThreadId × Note → Bool} {moments : List Moment}
    (tells : ∀ entry, check entry = true → entry.2.tellsOf m = true) :
    (told m moments).filter check = (observations moments).filter check := by
  unfold told
  rw [List.filter_filter]
  congr 1
  funext entry
  cases passes : check entry with
  | false => rfl
  | true => simp [tells entry passes]

theorem told_run {thread : ThreadId} {notes : List Note} :
    told m [⟨w, .run thread, notes⟩] = (notes.filter (·.tellsOf m)).map ((thread, ·)) := by
  simp [told, List.filter_map, Function.comp_def]

theorem told_idle {move : Move} {notes : List Note} (idle : ∀ thread, move ≠ .run thread) :
    told m [⟨w, move, notes⟩] = [] := by
  cases move with
  | run thread => exact absurd rfl (idle thread)
  | _ => rfl

theorem told_moment {move : Move} {notes : List Note} {s s' : Scene}
    (turns : s.Turns m move notes s') :
    (∃ thread deed, s.Moves thread deed s' ∧
        told m [⟨w, move, notes⟩] = (s.core.notes m thread deed).map ((thread, ·))) ∨
      s' = s ∧ told m [⟨w, move, notes⟩] = [] := by
  cases turns with
  | @run thread deed _ _ moves same => exact .inl ⟨thread, deed, moves, by rw [told_run, same]⟩
  | idle idle => exact .inr ⟨rfl, told_idle idle⟩

/-- What the deeds of the protocol keep, of a scene and of what was told until then, every course
keeps. -/
theorem Course.tells {P : List (ThreadId × Note) → Scene → Prop} {moments : List Moment}
    (step : ∀ {history s s' thread deed}, s.Lawful → P history s → s.Moves thread deed s' →
      P (history ++ (s.core.notes m thread deed).map ((thread, ·))) s')
    (course : Course (Orderly m) w moments v) (coherent : w.Coherent m)
    (start : P [] (w.scene m)) : P (told m moments) (v.scene m) := by
  induction course with
  | nil => exact start
  | @snoc moments v u move notes before orderly moves ih =>
    have reached := before.coherent coherent
    obtain ⟨-, turns⟩ := reached.move orderly moves
    rw [told_append]
    obtain ⟨thread, deed, turn, same⟩ | ⟨still, same⟩ := told_moment (w := v) turns
    · rw [same]
      exact step reached.lawful ih turn
    · rw [same, still, List.append_nil]
      exact ih

end

end StopTheWorld
