import StopTheWorld.Machine.World

namespace StopTheWorld.World

/-! What is read from a world after something has been written to it. -/

variable (w : World)

theorem thread_modifyThread (t u : ThreadId) (f : Thread → Thread) :
    (w.modifyThread t f).thread u = if u = t then f (w.thread t) else w.thread u :=
  Table.get_modify ..

@[simp] theorem thread_modifyRecord (r : RecordId) (f : Record Deferred → Record Deferred)
    (u : ThreadId) : (w.modifyRecord r f).thread u = w.thread u := rfl

@[simp] theorem thread_modifyManager (m : ManagerId) (f : Manager → Manager) (u : ThreadId) :
    (w.modifyManager m f).thread u = w.thread u := rfl

@[simp] theorem thread_modifyLock (l : LockRef) (f : OwnedLock → OwnedLock) (u : ThreadId) :
    (w.modifyLock l f).thread u = w.thread u := by
  cases l <;> rfl

@[simp] theorem thread_modifyRegistry (r : RegistryRef) (f : Registry → Registry) (u : ThreadId) :
    (w.modifyRegistry r f).thread u = w.thread u := by
  cases r <;> rfl

@[simp] theorem thread_setPhaser (p : PhaserRef) (value : Phaser) (u : ThreadId) :
    (w.setPhaser p value).thread u = w.thread u := by
  cases p <;> simp [setPhaser]
  rfl

theorem thread_setStack (t u : ThreadId) (stack : List Frame) :
    (w.setStack t stack).thread u =
      if u = t then { w.thread t with stack := stack } else w.thread u :=
  thread_modifyThread ..

theorem thread_setInPause (t u : ThreadId) (inPause : Bool) :
    (w.setInPause t inPause).thread u =
      if u = t then { w.thread t with inPause := inPause } else w.thread u :=
  thread_modifyThread ..

theorem interrupter_modifyInterrupter (t u : ThreadId)
    (f : Interrupter Wake → Interrupter Wake) :
    (w.modifyInterrupter t f).interrupter u =
      if u = t then f (w.interrupter t) else w.interrupter u := by
  unfold interrupter modifyInterrupter
  rw [thread_modifyThread]
  split <;> rfl

@[simp] theorem manager_modifyThread (t : ThreadId) (f : Thread → Thread) (m : ManagerId) :
    (w.modifyThread t f).manager m = w.manager m := rfl

@[simp] theorem manager_setStack (t : ThreadId) (stack : List Frame) (m : ManagerId) :
    (w.setStack t stack).manager m = w.manager m := rfl

@[simp] theorem manager_setInPause (t : ThreadId) (inPause : Bool) (m : ManagerId) :
    (w.setInPause t inPause).manager m = w.manager m := rfl

@[simp] theorem manager_modifyInterrupter (t : ThreadId)
    (f : Interrupter Wake → Interrupter Wake) (m : ManagerId) :
    (w.modifyInterrupter t f).manager m = w.manager m := rfl

@[simp] theorem manager_modifyRecord (r : RecordId) (f : Record Deferred → Record Deferred)
    (m : ManagerId) : (w.modifyRecord r f).manager m = w.manager m := rfl

theorem manager_modifyManager (m n : ManagerId) (f : Manager → Manager) :
    (w.modifyManager m f).manager n = if n = m then f (w.manager m) else w.manager n :=
  Table.get_modify ..

theorem manager_modifyLock (l : LockRef) (f : OwnedLock → OwnedLock) (m : ManagerId) :
    (w.modifyLock l f).manager m =
      if l = .pause m then { w.manager m with pauseLock := f (w.manager m).pauseLock }
      else w.manager m := by
  cases l with
  | global => rfl
  | loose => rfl
  | pause n =>
    simp only [modifyLock, manager_modifyManager, LockRef.pause.injEq, eq_comm (a := n)]
    by_cases h : m = n <;> simp [h]

theorem manager_modifyRegistry (r : RegistryRef) (f : Registry → Registry) (m : ManagerId) :
    (w.modifyRegistry r f).manager m =
      if r = .manager m then { w.manager m with registry := f (w.manager m).registry }
      else w.manager m := by
  cases r with
  | loose => rfl
  | manager n =>
    simp only [modifyRegistry, manager_modifyManager, RegistryRef.manager.injEq, eq_comm (a := n)]
    by_cases h : m = n <;> simp [h]

/-- Writing a lock changes what is read of that lock and of no other. -/
theorem lock_modifyLock (l k : LockRef) (f : OwnedLock → OwnedLock) :
    (w.modifyLock l f).lock k = if k = l then f (w.lock l) else w.lock k := by
  cases l <;> cases k <;>
    simp [modifyLock, modifyManager, lock, manager, Table.get_modify]
  split <;> simp_all

theorem registry_modifyRegistry (r s : RegistryRef) (f : Registry → Registry) :
    (w.modifyRegistry r f).registry s = if s = r then f (w.registry r) else w.registry s := by
  cases r <;> cases s <;>
    simp [modifyRegistry, modifyManager, registry, manager, Table.get_modify]
  split <;> simp_all

theorem phaser_setPhaser (p q : PhaserRef) (value : Phaser) :
    (w.setPhaser p value).phaser q = if q = p then value else w.phaser q := by
  cases p <;> cases q
  · simp only [setPhaser, phaser, registry_modifyRegistry, PhaserRef.registry.injEq]
    split <;> simp_all
  · rename_i r s
    cases r <;> simp [setPhaser, phaser, modifyRegistry, modifyManager]
  · rename_i p r
    cases r <;> simp [setPhaser, phaser, registry, manager]
  · simp [setPhaser, phaser, Table.get_set]

theorem record_modifyRecord (r s : RecordId) (f : Record Deferred → Record Deferred) :
    (w.modifyRecord r f).record s = if s = r then f (w.record r) else w.record s :=
  Table.get_modify ..

@[simp] theorem record_modifyThread (t : ThreadId) (f : Thread → Thread) (r : RecordId) :
    (w.modifyThread t f).record r = w.record r := rfl

@[simp] theorem record_modifyManager (m : ManagerId) (f : Manager → Manager) (r : RecordId) :
    (w.modifyManager m f).record r = w.record r := rfl

end StopTheWorld.World
