import StopTheWorld.Proofs.Reserved

namespace StopTheWorld

/-! What a driver that calls the others to its pause can count on: the action is there, the epoch is
stale, and the member that it interrupts stays a member meanwhile. -/

/-- What a driver on its way to the phases, and its visit to the members, can count on. -/
def Frame.Warrants (m : ManagerId) (manager : Manager) : Frame → Prop
  | pausing p =>
    p.manager = m →
      (p.point.isPressing = true → manager.action = some p.action) ∧
      (p.point.stage = 1 → manager.epoch.valid = false) ∧
      (p.point = .interrupt → manager.settings.interruptBlocked = true)
  | visit v =>
    v.registry = .manager m →
      manager.settings.interruptBlocked = true ∧
      ∀ target, v.point = .release target →
        target ∈ manager.registry.held ∧ target ∈ manager.registry.interruptible
  | _ => True

/-- What is begun or gone on with has what it counts on. -/
def Control.Warrants (m : ManagerId) (manager : Manager) : Control → Prop
  | goto frame => frame.Warrants m manager
  | call child back => child.Warrants m manager ∧ back.Warrants m manager
  | reply _ | unwind _ => True

/-- What the drivers of the manager's pauses count on is so. -/
structure World.Warranted (m : ManagerId) (w : World) : Prop where
  tended : w.Tended m
  laid : w.IsLaid
  fitted : w.IsFitted
  warrants : ∀ thread, ∀ frame ∈ w.stack thread, frame.Warrants m (w.manager m)

section

variable {m : ManagerId} {self thread : ThreadId} {w v : World} {frame parent : Frame}
  {rest : List Frame} {effect : Effect} {notes : List Note} {moments : List Moment}

theorem Frame.Warrants.transfer {before after : Manager} (warrants : frame.Warrants m before)
    (setup : after.setup = before.setup)
    (driver : ∀ p, frame = .pausing p → p.manager = m → p.point.isPressing = true →
      after.epoch = before.epoch ∧ after.action = before.action)
    (visitor : ∀ x, frame = .visit x → x.registry = .manager m →
      after.registry.held = before.registry.held ∧ ∀ target ∈ before.registry.held,
        target ∈ before.registry.interruptible → target ∈ after.registry.interruptible) :
    frame.Warrants m after := by
  have settings : after.settings = before.settings := congrArg (·.2.2) setup
  cases frame with
  | pausing p =>
    intro manager
    obtain ⟨action, epoch, blocked⟩ := warrants manager
    refine ⟨fun pressing => (driver p rfl manager pressing).2.trans (action pressing),
      fun stage => ?_, fun point => settings ▸ blocked point⟩
    have pressing : p.point.isPressing = true := by
      cases point : p.point <;> simp_all [Pausing.Point.stage, Pausing.Point.isPressing]
    rw [(driver p rfl manager pressing).1]
    exact epoch stage
  | visit x =>
    intro registry
    obtain ⟨blocked, members⟩ := warrants registry
    obtain ⟨held, kept⟩ := visitor x rfl registry
    exact ⟨settings ▸ blocked, fun target point =>
      ⟨held ▸ (members target point).1, kept target (members target point).1 (members target point).2⟩⟩
  | _ => trivial

/-- A member that a visit stands at stays a member. -/
theorem Frame.keeps_held {target : ThreadId} (step : frame.advance self w = some effect)
    (held : target ∈ (w.manager m).registry.held)
    (mem : target ∈ (w.manager m).registry.interruptible) :
    target ∈ (effect.world.manager m).registry.interruptible := by
  have same (members : (effect.world.manager m).registry.members = (w.manager m).registry.members) :
      target ∈ (effect.world.manager m).registry.interruptible := by
    rw [Registry.interruptible, members]
    exact mem
  cases Frame.enrols (.manager m) step with
  | keeps roll => exact same (Registry.roll_eq_iff.mp roll).1
  | claims _ _ _ world => exact same (by rw [world, World.manager_modifyRegistry, if_pos rfl]; rfl)
  | departs _ _ _ roll => exact same (Prod.mk.inj roll).1
  | inserts _ world =>
    rw [world, World.manager_modifyRegistry, if_pos rfl]
    simp only [Registry.interruptible, Registry.insert, List.filter_append, List.map_append,
      List.mem_append]
    exact .inl mem
  | @removes identity before view top _ world =>
    have unlocked : (w.registry (.manager m)).isLocked identity = false := by
      subst top
      rw [Bool.eq_false_iff]
      intro locked
      simp [advance, Withdrawal.advance, locked] at step
    have other : target ≠ identity := by
      rintro rfl
      simp [Registry.isLocked, World.registry, held] at unlocked
    obtain ⟨entry, kept, rfl⟩ := List.mem_map.mp mem
    rw [world, World.manager_modifyRegistry, if_pos rfl]
    refine List.mem_map.mpr ⟨entry, ?_, rfl⟩
    simp only [Registry.remove, List.mem_filter] at kept ⊢
    exact ⟨⟨kept.1, by simpa using other⟩, kept.2⟩

theorem Visit.warrants_step {x : Visit} (warrants : (Frame.visit x).Warrants m (w.manager m))
    (step : x.advance w = some effect) : effect.control.Warrants m (effect.world.manager m) := by
  unfold advance at step
  dsimp only at step
  split at step
  · obtain rfl := Option.some.inj step
    exact fun registry => ⟨(warrants registry).1, by simp⟩
  · obtain rfl := Option.some.inj step
    trivial
  · rename_i identity later point todo
    split at step
    · rename_i present
      split at step <;> obtain rfl := Option.some.inj step
      · refine ⟨trivial, fun registry => ?_⟩
        dsimp only at registry
        rw [registry] at present ⊢
        rw [World.manager_modifyRegistry, if_pos rfl]
        refine ⟨(warrants registry).1, ?_⟩
        rintro target same
        obtain rfl := Point.release.inj same
        have listed : identity ∈ (w.manager m).registry.interruptible := by
          simpa [World.registry] using present
        exact ⟨List.mem_cons_self, listed⟩
      · exact fun registry => ⟨(warrants registry).1, by simp [point]⟩
    · obtain rfl := Option.some.inj step
      exact fun registry => ⟨(warrants registry).1, by simp [point]⟩
  · obtain rfl := Option.some.inj step
    intro registry
    dsimp only at registry
    rw [registry, World.manager_modifyRegistry, if_pos rfl]
    exact ⟨(warrants registry).1, by simp⟩
  · obtain rfl := Option.some.inj step
    trivial

theorem Pausing.warrants_step {p : Pausing}
    (warrants : (Frame.pausing p).Warrants m (w.manager m)) (step : p.advance self w = some effect) :
    effect.control.Warrants m (effect.world.manager m) := by
  -- the points between the invalidation and the phases
  have goes {q : Pausing} {u : World} (same : u.manager m = w.manager m)
      (manager : q.manager = p.manager) (action : q.action = p.action)
      (before : p.point.stage = 1) (blocked : q.point = .interrupt → p.manager = m →
        (w.manager m).settings.interruptBlocked = true) :
      (Frame.pausing q).Warrants m (u.manager m) := by
    intro own
    obtain ⟨slot, epoch, -⟩ := warrants (manager.symm.trans own)
    have pressing : p.point.isPressing = true := by
      cases point : p.point <;> simp_all [Point.stage, Point.isPressing]
    rw [same, action]
    exact ⟨fun _ => slot pressing, fun _ => epoch before, fun point => blocked point (manager ▸ own)⟩
  unfold advance at step
  dsimp only at step
  split at step
  all_goals rename_i point
  case h_7 | h_8 =>
    obtain rfl := Option.some.inj step
    intro manager
    obtain ⟨action, -⟩ := warrants manager
    subst manager
    rw [World.manager_modifyManager, if_pos rfl]
    simp_all [Point.stage, Point.isPressing]
  case h_9 =>
    obtain rfl := Option.some.inj step
    refine ⟨trivial, goes rfl rfl rfl (by simp [point, Point.stage]) ?_⟩
    rintro after rfl
    simpa using after
  case h_10 =>
    obtain rfl := Option.some.inj step
    refine ⟨fun registry => ?_, goes rfl rfl rfl (by simp [point, Point.stage]) (by simp)⟩
    exact ⟨(warrants (RegistryRef.manager.inj registry)).2.2 point, by simp⟩
  case h_11 =>
    split at step
    · obtain ⟨v, notes, leaves, rfl⟩ := World.leaves_of_bind step
      exact goes (World.manager_leaveGlobal leaves) rfl rfl (by simp [point, Point.stage]) (by simp)
    · obtain rfl := Option.some.inj step
      exact goes rfl rfl rfl (by simp [point, Point.stage]) (by simp)
  all_goals
    repeat' split at step
    all_goals
      obtain rfl := Option.some.inj step
      first
        | trivial
        | exact fun _ => ⟨by simp [Point.isPressing], by simp [Point.stage], by simp⟩
        | exact ⟨trivial, fun _ => ⟨by simp [Point.isPressing], by simp [Point.stage], by simp⟩⟩

theorem Op.warrants_step {op : Op} (step : op.advance self w = some effect) (manager : Manager) :
    effect.control.Warrants m manager := by
  cases op with
  | access a =>
    obtain ⟨-, -, ⟨value, control⟩ | ⟨message, control⟩⟩ := Access.agrees (m := 0) step <;>
      rw [control] <;> trivial
  | release n =>
    obtain ⟨_, -, replies⟩ := Option.bind_eq_some_iff.mp step
    obtain rfl := Option.some.inj replies
    trivial
  | deferLookup | unlock =>
    simp only [advance] at step
    split at step <;> obtain rfl := Option.some.inj step <;> trivial
  | _ =>
    obtain rfl := Option.some.inj step
    first
      | trivial
      | exact fun _ => ⟨by simp [Pausing.Point.isPressing], by simp [Pausing.Point.stage], by simp⟩
      | simp [Control.Warrants, Frame.Warrants]

theorem Frame.warrants_step (warrants : frame.Warrants m (w.manager m))
    (step : frame.advance self w = some effect) :
    effect.control.Warrants m (effect.world.manager m) := by
  cases frame with
  | start op => exact Op.warrants_step step _
  | visit x => exact Visit.warrants_step warrants step
  | pausing p => exact Pausing.warrants_step warrants step
  | _ =>
    simp only [advance, Acquisition.advance, Acquisition.took, Acquisition.gaveUp, Release.advance,
      OwnedLock.advanceNotify, Arrival.advance, Sleeping.advance, Parking.advance,
      Interruption.advance, Enrolment.advance, Withdrawal.advance, Script.advance,
      Sequence.advance, Drain.advance, Phases.advance, Resuming.advance, Polling.advance,
      Entering.advance, Leaving.advance, Foreign.advance, Acquiring.advance, Blocking.advance,
      Trial.advance] at step
    repeat' split at step
    all_goals first
      | (obtain rfl := Option.some.inj step
         first
           | trivial
           | exact ⟨trivial, trivial⟩
           | exact ⟨fun _ => ⟨by simp [Pausing.Point.isPressing], by simp [Pausing.Point.stage],
               by simp⟩, trivial⟩)
      | (obtain ⟨_, -, goes⟩ := Option.bind_eq_some_iff.mp step
         obtain rfl := Option.some.inj goes
         trivial)
      | simp at step

theorem Frame.warrants_resume {manager : Manager} (warrants : parent.Warrants m manager)
    (value : Reply) : (parent.resume value).Warrants m manager := by
  unfold Frame.resume
  split <;> first
    | trivial
    | exact warrants
    | exact fun _ => ⟨by simp [Pausing.Point.isPressing], by simp [Pausing.Point.stage], by simp⟩
    | (split <;> trivial)

theorem Frame.warrants_catch {manager : Manager} {message : String} {handler : Frame}
    (warrants : parent.Warrants m manager) (caught : parent.catch? message = some handler) :
    handler.Warrants m manager := by
  unfold Frame.catch? at caught
  repeat' split at caught
  all_goals first
    | (obtain rfl := Option.some.inj caught
       first
         | trivial
         | exact fun _ => ⟨by simp [Pausing.Point.isPressing], by simp [Pausing.Point.stage], by simp⟩
         | exact fun registry => ⟨(warrants registry).1, by simp⟩)
    | simp at caught

theorem Frame.warrants_unwind {manager : Manager} {message : String}
    (below : ∀ frame ∈ rest, frame.Warrants m manager) :
    ∀ frame ∈ Frame.unwind message rest, frame.Warrants m manager := by
  induction rest with
  | nil => simp [Frame.unwind]
  | cons parent below' ih =>
    have deep : ∀ frame ∈ below', frame.Warrants m manager :=
      fun frame mem => below frame (List.mem_cons_of_mem _ mem)
    unfold Frame.unwind
    split
    · exact List.forall_mem_cons.mpr ⟨Frame.warrants_catch (below _ List.mem_cons_self) ‹_›, deep⟩
    · exact ih deep

theorem Control.warrants_stack {manager : Manager} {control : Control}
    (top : control.Warrants m manager) (below : ∀ frame ∈ rest, frame.Warrants m manager) :
    ∀ frame ∈ control.stack rest, frame.Warrants m manager := by
  cases control with
  | goto frame => exact List.forall_mem_cons.mpr ⟨top, below⟩
  | call child back =>
    exact List.forall_mem_cons.mpr ⟨top.1, List.forall_mem_cons.mpr ⟨top.2, below⟩⟩
  | reply value =>
    cases rest with
    | nil => simp [Control.stack]
    | cons parent below' =>
      obtain ⟨first, deep⟩ := List.forall_mem_cons.mp below
      exact List.forall_mem_cons.mpr ⟨Frame.warrants_resume first value, deep⟩
  | unwind message => exact Frame.warrants_unwind below

/-- No other move than a step changes anything of a manager but who waits for its pause lock. -/
theorem World.manager_idle {move : Move} (moves : w.move move = some (v, notes))
    (other : ∀ thread, move ≠ .run thread) :
    v.manager m = { w.manager m with pauseLock := (v.manager m).pauseLock } := by
  cases move with
  | run thread => exact absurd rfl (other thread)
  | submit thread op =>
    obtain ⟨u, submit, same⟩ := Option.map_eq_some_iff.mp moves
    obtain ⟨rfl, rfl⟩ := Prod.mk.inj same
    unfold World.submit at submit
    split at submit
    · obtain rfl := Option.some.inj submit
      rfl
    · simp at submit
  | elapse span =>
    obtain ⟨rfl, rfl⟩ := Prod.mk.inj (Option.some.inj moves)
    rfl
  | rouse thread =>
    obtain ⟨rfl, rfl⟩ := Prod.mk.inj (Option.some.inj moves)
    unfold World.rouse
    split
    · rw [World.manager_modifyLock]
      split <;> rfl
    · rfl
    · split <;> rfl
    · rfl

namespace World.Warranted

theorem of_idle (fresh : w.IsFresh m) : w.Warranted m where
  tended := fresh.tended
  laid thread := by rw [fresh.idle]; trivial
  fitted thread := by rw [fresh.idle]; trivial
  warrants thread frame mem := by simp [fresh.idle] at mem

/-- A driver on its way to the phases owns the pause lock. -/
theorem owner_of_pressing (warranted : w.Warranted m) {p : Pausing}
    (mem : .pausing p ∈ w.stack thread) (manager : p.manager = m)
    (pressing : p.point.isPressing = true) : (w.manager m).pauseLock.owner = some thread :=
  (warranted.tended.owner thread).mpr <|
    (warranted.tended.straight thread).isSome_holdOf mem manager pressing

/-- A step leaves of the manager what any other frame on a stack counts on. -/
theorem others (warranted : w.Warranted m) (stack : w.stack self = frame :: rest)
    (step : frame.advance self w = some effect) {other : Frame}
    (elsewhere : other ∈ rest ∨ thread ≠ self ∧ other ∈ w.stack thread) :
    other.Warrants m (effect.world.manager m) := by
  have straight : Straight m self (frame :: rest) := stack ▸ warranted.tended.straight self
  have fitted : Fitted self (frame :: rest) := stack ▸ warranted.fitted self
  have owns (held : (holdOf m (frame :: rest)).isSome = true) :
      (w.manager m).pauseLock.owner = some self :=
    (warranted.tended.owner self).mpr (by rw [stack]; exact held)
  have before : other.Warrants m (w.manager m) := by
    obtain inner | ⟨-, mem⟩ := elsewhere
    · exact warranted.warrants self other (by rw [stack]; exact List.mem_cons_of_mem _ inner)
    · exact warranted.warrants thread other mem
  -- a driver elsewhere that is on its way to the phases would own the lock, too
  have apart {p : Pausing} (mem : .pausing p ∈ w.stack thread) (manager : p.manager = m)
      (pressing : p.point.isPressing = true) (other : thread ≠ self) :
      (holdOf m (frame :: rest)).isSome ≠ true := fun held => by
    have same := (warranted.owner_of_pressing mem manager pressing).symm.trans (owns held)
    exact other (Option.some.inj same)
  refine before.transfer (Frame.advance_setup step) ?_ ?_
  · rintro p rfl manager pressing
    have still : frame.rewrites m = false := by
      rw [Bool.eq_false_iff]
      intro rewrites
      obtain ⟨held, clear⟩ := straight.rewrites rewrites
      obtain inner | ⟨other, mem⟩ := elsewhere
      · rw [clear inner manager] at pressing
        simp at pressing
      · exact apart mem manager pressing other held
    exact ⟨(Frame.reserves step).epoch still, (Frame.reserves step).action still⟩
  · rintro x rfl registry
    have still : frame.visits m = false := by
      rw [Bool.eq_false_iff]
      intro visits
      obtain ⟨held, clear⟩ := fitted.visits straight visits
      obtain inner | ⟨other, mem⟩ := elsewhere
      · exact clear inner registry
      · obtain ⟨p, driver, manager, pressing⟩ := (warranted.fitted thread).pressing_of_visit
          (warranted.tended.straight thread) mem registry
        exact apart driver manager pressing other held
    exact ⟨(Frame.reserves step).held still, fun target => Frame.keeps_held step⟩

theorem step (warranted : w.Warranted m) (tame : Tame w self) (step : w.step self = some (v, notes)) :
    v.Warranted m := by
  have moves : w.move (.run self) = some (v, notes) := step
  have laid := warranted.laid.move moves
  have fitted := warranted.fitted.move warranted.laid moves
  obtain ⟨frame, rest, effect, stack, advances, rfl, -⟩ := World.step_eq_some step
  refine ⟨(warranted.tended.step tame step).1, laid, fitted, fun thread => ?_⟩
  rw [World.stack_setStack, World.manager_setStack]
  split
  · refine Control.warrants_stack (Frame.warrants_step ?_ advances) fun other mem =>
      warranted.others stack advances (show other ∈ rest ∨ self ≠ self ∧ _ from .inl mem)
    exact warranted.warrants self frame (by rw [stack]; exact List.mem_cons_self)
  · rename_i other
    intro frame mem
    rw [Frame.advance_stack advances] at mem
    exact warranted.others stack advances (.inr ⟨other, mem⟩)

theorem move {move : Move} (warranted : w.Warranted m)
    (tame : ∀ thread, move = .run thread → Tame w thread) (moves : w.move move = some (v, notes)) :
    v.Warranted m := by
  by_cases runs : ∃ thread, move = .run thread
  · obtain ⟨thread, rfl⟩ := runs
    exact warranted.step (tame thread rfl) moves
  · have idle (thread : ThreadId) : move ≠ .run thread := fun same => runs ⟨thread, same⟩
    refine ⟨warranted.tended.move tame moves, warranted.laid.move moves,
      warranted.fitted.move warranted.laid moves, fun thread => ?_⟩
    have kept {frame : Frame} (mem : frame ∈ w.stack thread) : frame.Warrants m (v.manager m) := by
      have before := warranted.warrants thread frame mem
      rw [World.manager_idle moves idle]
      exact before.transfer rfl (fun _ _ _ _ => ⟨rfl, rfl⟩) fun _ _ _ => ⟨rfl, fun _ _ => id⟩
    obtain ⟨-, same | ⟨op, -, told⟩ | ⟨frame, frame', rest, stack, after, rouses⟩⟩ :=
      World.move_other moves (idle thread)
    · rw [same]
      exact fun frame mem => kept mem
    · simp [told, Frame.Warrants]
    · rw [after]
      refine List.forall_mem_cons.mpr ⟨?_, fun other mem => kept (by rw [stack]; simp [mem])⟩
      cases rouses <;> trivial

/-- While a driver interrupts a thread for its pause. -/
theorem interrupting (warranted : w.Warranted m) {above below : List Frame} {i : Interruption}
    {x : Visit} {p : Pausing} (manager : p.manager = m)
    (stack : w.stack thread = above ++ .interruption i :: .visit x :: .pausing p :: below) :
    (p.point = .leaveGlobal ∧ x.Calls thread m ∧ x.point = .release i.target) ∧
      (w.manager m).pauseLock.owner = some thread ∧ (w.manager m).epoch.valid = false ∧
      (w.manager m).action = some p.action ∧
      (w.manager m).settings.interruptBlocked = true ∧
      i.target ≠ thread ∧ i.target ∈ (w.manager m).registry.interruptible := by
  have straight := Straight.append (stack ▸ warranted.tended.straight thread)
  have fitted := Fitted.append (stack ▸ warranted.fitted thread)
  have point : p.point = .leaveGlobal := straight.tail.2.1
  have target : x.point = .release i.target := fitted.1 x _ rfl
  have calls : x.Calls thread m := by
    obtain ⟨-, free⟩ | ⟨q, below', same, calls⟩ := fitted.2.1
    · exact absurd rfl (free p below)
    · obtain rfl := Frame.pausing.inj (List.cons.inj same).1
      exact manager ▸ calls
  have mem : .pausing p ∈ w.stack thread := by simp [stack]
  have pressing : p.point.isPressing = true := by simp [point, Pausing.Point.isPressing]
  have driver := warranted.warrants thread _ mem manager
  have visitor := warranted.warrants thread (.visit x) (by simp [stack]) calls.registry
  exact ⟨⟨point, calls, target⟩, warranted.owner_of_pressing mem manager pressing,
    driver.2.1 (by simp [point, Pausing.Point.stage]), driver.1 pressing, visitor.1,
    fun same => calls.other (same ▸ target), (visitor.2 _ target).2⟩

end World.Warranted

theorem Course.warranted (fresh : w.IsFresh m) (course : Course Tame w moments v) : v.Warranted m :=
  course.keeps (P := World.Warranted m) (fun warranted tame moves => warranted.move tame moves)
    (.of_idle fresh)

end

end StopTheWorld
