namespace StopTheWorld

/-! Names of the things a world is made of. Each is a plain number: what it denotes is looked up in
the world. -/

/-- A thread of the world. -/
abbrev ThreadId := Nat

/-- A runtime record; a thread may have had several. -/
abbrev RecordId := Nat

/-- A manager of pauses. -/
abbrev ManagerId := Nat

/-- A global lock. -/
abbrev GlobalId := Nat

/-- A phaser that belongs to no registry. -/
abbrev PhaserId := Nat

/-- A registry that belongs to no manager. -/
abbrev RegistryId := Nat

/-- A pause lock that belongs to no manager. -/
abbrev LockId := Nat

/-- A label chosen by the user, carried along unread. -/
abbrev Tag := String

/-- An owned lock: a global lock, the pause lock of a manager, or a pause lock on its own. -/
inductive LockRef
  | global (lock : GlobalId)
  | pause (manager : ManagerId)
  | loose (lock : LockId)
  deriving DecidableEq

/-- A registry: the one of a manager, or one on its own. -/
inductive RegistryRef
  | manager (manager : ManagerId)
  | loose (registry : RegistryId)
  deriving DecidableEq

/-- A phaser: the one of a registry, or one on its own. -/
inductive PhaserRef
  | registry (registry : RegistryRef)
  | loose (phaser : PhaserId)
  deriving DecidableEq

end StopTheWorld
