import StopTheWorld.Machine.Laws
import StopTheWorld.Machine.Step
import StopTheWorld.Proofs.Protocol

namespace StopTheWorld

/-! Steps that leave pauses alone. -/

/-- Two worlds that differ in nothing that the pauses of a manager depend on. -/
structure World.Agrees (m : ManagerId) (w v : World) : Prop where
  core : v.core m = w.core m
  stack : ∀ thread, v.stack thread = w.stack thread
  inPause : ∀ thread, (v.thread thread).inPause = (w.thread thread).inPause

/-- None of the notes tells of a deed done to the manager. -/
def Silent (m : ManagerId) (notes : List Note) : Prop := ∀ note ∈ notes, note.tellsOf m = false

theorem Silent.filter {m : ManagerId} {notes : List Note} (silent : Silent m notes) :
    notes.filter (·.tellsOf m) = [] :=
  List.filter_eq_nil_iff.mpr fun note mem => by simp [silent note mem]

@[simp] theorem silent_nil (m : ManagerId) : Silent m [] := by simp [Silent]

@[simp] theorem silent_cons (m : ManagerId) (note : Note) (notes : List Note) :
    Silent m (note :: notes) ↔ note.tellsOf m = false ∧ Silent m notes := by
  simp [Silent]

namespace World.Agrees

variable {m : ManagerId} {w v u : World}

theorem refl (w : World) : w.Agrees m w := ⟨rfl, fun _ => rfl, fun _ => rfl⟩

theorem trans (first : w.Agrees m v) (second : v.Agrees m u) : w.Agrees m u :=
  ⟨second.core.trans first.core, fun thread => (second.stack thread).trans (first.stack thread),
    fun thread => (second.inPause thread).trans (first.inPause thread)⟩

theorem modifyThread (w : World) (thread : ThreadId) {f : Thread → Thread}
    (stack : (f (w.thread thread)).stack = (w.thread thread).stack)
    (inPause : (f (w.thread thread)).inPause = (w.thread thread).inPause) :
    w.Agrees m (w.modifyThread thread f) := by
  refine ⟨rfl, fun other => ?_, fun other => ?_⟩
  · unfold World.stack
    rw [thread_modifyThread]
    split
    · rename_i same
      rw [stack, same]
    · rfl
  · rw [thread_modifyThread]
    split
    · rename_i same
      rw [inPause, same]
    · rfl

theorem modifyInterrupter (w : World) (thread : ThreadId)
    (f : Interrupter Wake → Interrupter Wake) : w.Agrees m (w.modifyInterrupter thread f) :=
  modifyThread w thread rfl rfl

theorem modifyRecord (w : World) (record : RecordId) (f : Record Deferred → Record Deferred) :
    w.Agrees m (w.modifyRecord record f) :=
  ⟨rfl, fun _ => rfl, fun _ => rfl⟩

theorem modifyManager (w : World) (n : ManagerId) {f : Manager → Manager}
    (core : (f (w.manager n)).core = (w.manager n).core) : w.Agrees m (w.modifyManager n f) := by
  refine ⟨?_, fun _ => rfl, fun _ => rfl⟩
  unfold World.core
  rw [manager_modifyManager]
  split
  · rename_i same
    rw [core, same]
  · rfl

theorem publish (w : World) (n : ManagerId) (event : Event) : w.Agrees m (w.publish n event) :=
  modifyManager w n rfl

theorem modifyLock (w : World) (lock : LockRef) {f : OwnedLock → OwnedLock}
    (owner : lock = .pause m → (f (w.lock lock)).owner = (w.lock lock).owner) :
    w.Agrees m (w.modifyLock lock f) := by
  refine ⟨?_, fun thread => ?_, fun thread => ?_⟩
  · unfold World.core
    rw [manager_modifyLock]
    split
    · rename_i same
      subst same
      have owner := owner rfl
      unfold Manager.core
      simpa [World.lock] using owner
    · rfl
  · unfold World.stack
    rw [thread_modifyLock]
  · rw [thread_modifyLock]

theorem modifyRegistry (w : World) (registry : RegistryRef) {f : Registry → Registry}
    (members : registry = .manager m → (f (w.registry registry)).members =
      (w.registry registry).members)
    (phaser : registry = .manager m → (f (w.registry registry)).phaser =
      (w.registry registry).phaser) :
    w.Agrees m (w.modifyRegistry registry f) := by
  refine ⟨?_, fun thread => ?_, fun thread => ?_⟩
  · unfold World.core
    rw [manager_modifyRegistry]
    split
    · rename_i same
      subst same
      have members := members rfl
      have phaser := phaser rfl
      unfold Manager.core
      simp only [Core.mk.injEq, true_and]
      exact ⟨members, phaser⟩
    · rfl
  · unfold World.stack
    rw [thread_modifyRegistry]
  · rw [thread_modifyRegistry]

theorem setPhaser (w : World) {phaser : PhaserRef} (value : Phaser)
    (other : phaser ≠ .registry (.manager m)) : w.Agrees m (w.setPhaser phaser value) := by
  cases phaser with
  | loose => exact ⟨rfl, fun _ => rfl, fun _ => rfl⟩
  | registry registry =>
    have other : registry ≠ .manager m := fun same => other (congrArg _ same)
    unfold World.setPhaser
    exact modifyRegistry w registry (absurd · other) (absurd · other)

theorem leaveGlobal {lock : GlobalId} {owner : ThreadId} {notes : List Note}
    (leaves : w.leaveGlobal lock owner = some (v, notes)) : w.Agrees m v ∧ Silent m notes := by
  unfold World.leaveGlobal at leaves
  dsimp only at leaves
  split at leaves
  · simp only [Option.some.injEq, Prod.mk.injEq] at leaves
    obtain ⟨rfl, rfl⟩ := leaves
    refine ⟨modifyLock w _ (by simp), ?_⟩
    split <;> simp [Note.tellsOf]
  · simp at leaves

theorem checkInterrupt (w : World) (thread : ThreadId) :
    w.Agrees m (w.checkInterrupt thread).1 := by
  unfold World.checkInterrupt
  split
  · exact modifyInterrupter w thread _
  · exact refl w

theorem depart {phaser : PhaserRef} {phase : Nat} {notes : List Note}
    (other : phaser ≠ .registry (.manager m))
    (departs : w.depart phaser = .ok (v, phase, notes)) : w.Agrees m v ∧ Silent m notes := by
  unfold World.depart at departs
  dsimp only at departs
  split at departs
  · simp at departs
  · simp only [Except.ok.injEq, Prod.mk.injEq] at departs
    obtain ⟨rfl, rfl, rfl⟩ := departs
    refine ⟨setPhaser w _ other, ?_⟩
    split <;> simp [Note.tellsOf, other]

theorem unsubscribe (w : World) (name : String) : w.Agrees m (w.unsubscribe name) := by
  unfold World.unsubscribe
  split
  · exact refl w
  · exact (modifyManager w _ rfl).trans ⟨rfl, fun _ => rfl, fun _ => rfl⟩

theorem subscribe (w : World) (n : ManagerId) (name : String) :
    w.Agrees m (w.subscribe n name) :=
  (unsubscribe w name).trans
    ((modifyManager _ n rfl).trans ⟨rfl, fun _ => rfl, fun _ => rfl⟩)

theorem blockOn (w : World) (target : ThreadId) (tag : Tag) (script : List Op) :
    w.Agrees m (w.blockOn target tag script) :=
  (modifyInterrupter w target (·.install (some (.script tag script)))).trans
    ⟨rfl, fun _ => rfl, fun _ => rfl⟩

theorem renewRecord (w : World) (thread : ThreadId) : w.Agrees m (w.renewRecord thread) :=
  (modifyThread w thread rfl rfl).trans ⟨rfl, fun _ => rfl, fun _ => rfl⟩

end World.Agrees

/-- An operation of a single step has nothing to do with pauses, and replies or unwinds. -/
theorem Access.agrees {m : ManagerId} {access : Access} {self : ThreadId} {w : World}
    {effect : Effect} (step : access.advance self w = some effect) :
    w.Agrees m effect.world ∧ Silent m effect.notes ∧
      ((∃ value, effect.control = .reply value) ∨ ∃ message, effect.control = .unwind message) := by
  have unchanged := World.Agrees.refl (m := m) w
  cases access with
  | subscribe n name =>
    obtain rfl := Option.some.inj step
    exact ⟨.subscribe w n name, by simp, .inl ⟨_, rfl⟩⟩
  | unsubscribe name =>
    obtain rfl := Option.some.inj step
    exact ⟨.unsubscribe w name, by simp, .inl ⟨_, rfl⟩⟩
  | globalTryEnter lock owner =>
    simp only [advance] at step
    split at step
    · split at step <;> obtain rfl := Option.some.inj step
      · have other : LockRef.global lock ≠ .pause m := by simp
        exact ⟨.modifyLock w _ (absurd · other), by simp [Note.tellsOf], .inl ⟨_, rfl⟩⟩
      · exact ⟨unchanged, by simp, .inl ⟨_, rfl⟩⟩
    · simp at step
  | globalLeave lock owner =>
    obtain ⟨⟨v, notes⟩, leaves, replies⟩ := Option.bind_eq_some_iff.mp step
    obtain rfl := Option.some.inj replies
    obtain ⟨agrees, silent⟩ := World.Agrees.leaveGlobal (m := m) leaves
    exact ⟨agrees, silent, .inl ⟨_, rfl⟩⟩
  | phaserRegister phaser =>
    obtain rfl := Option.some.inj step
    have other : PhaserRef.loose phaser ≠ .registry (.manager m) := by simp
    exact ⟨.setPhaser w _ other, by simp [Note.tellsOf], .inl ⟨_, rfl⟩⟩
  | phaserDepart phaser =>
    simp only [advance] at step
    split at step
    · obtain rfl := Option.some.inj step
      exact ⟨unchanged, by simp, .inr ⟨_, rfl⟩⟩
    · rename_i v phase notes departs
      obtain rfl := Option.some.inj step
      obtain ⟨agrees, silent⟩ := World.Agrees.depart (m := m) (by simp) departs
      exact ⟨agrees, silent, .inl ⟨_, rfl⟩⟩
  | setPending lock pending =>
    obtain rfl := Option.some.inj step
    exact ⟨⟨rfl, fun _ => rfl, fun _ => rfl⟩, by simp, .inl ⟨_, rfl⟩⟩
  | take thread =>
    obtain rfl := Option.some.inj step
    exact ⟨.modifyInterrupter w _ _, by simp, .inl ⟨_, rfl⟩⟩
  | check thread =>
    obtain rfl := Option.some.inj step
    exact ⟨.checkInterrupt w _, by simp, .inl ⟨_, rfl⟩⟩
  | unblock tag =>
    simp only [advance] at step
    split at step <;> obtain rfl := Option.some.inj step
    · exact ⟨unchanged, by simp, .inl ⟨_, rfl⟩⟩
    · rename_i guard _
      exact ⟨(World.Agrees.modifyInterrupter w guard.target (·.install guard.saved)).trans
        ⟨rfl, fun _ => rfl, fun _ => rfl⟩, by simp, .inl ⟨_, rfl⟩⟩
  | setStatus thread status =>
    obtain rfl := Option.some.inj step
    exact ⟨.modifyRecord w _ _, by simp, .inl ⟨_, rfl⟩⟩
  | freshRecord =>
    obtain rfl := Option.some.inj step
    exact ⟨.renewRecord w self, by simp, .inl ⟨_, rfl⟩⟩
  | _ =>
    obtain rfl := Option.some.inj step
    exact ⟨unchanged, by simp, .inl ⟨_, rfl⟩⟩

end StopTheWorld
