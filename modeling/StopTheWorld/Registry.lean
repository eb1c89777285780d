import StopTheWorld.Ident
import StopTheWorld.Phaser

namespace StopTheWorld

/-- A thread's entry in a registry. The thread is known by its interrupter. -/
structure Registration where
  identity : ThreadId
  record : Option RecordId := none
  interruptible : Bool := true
  deriving DecidableEq, Inhabited

/-- The threads that take part in pauses, each at most once, and a phaser with one party for each.

Registering takes two steps, first the party and then the entry, and so does deregistering, in the
opposite order; in between there is a party too many, never one too few. `claimed` lists the
identities whose registration is half done. `held` lists the identities of the members that a visit
stands at, once for each visit. -/
structure Registry where
  members : List Registration := []
  claimed : List ThreadId := []
  held : List ThreadId := []
  phaser : Phaser := {}
  deriving DecidableEq, Inhabited

namespace Registry

def get? (registry : Registry) (identity : ThreadId) : Option Registration :=
  registry.members.find? (·.identity = identity)

def contains (registry : Registry) (identity : ThreadId) : Bool :=
  registry.members.any (·.identity = identity)

def identities (registry : Registry) : List ThreadId := registry.members.map (·.identity)

def size (registry : Registry) : Nat := registry.members.length

/-- The identities of the interruptible members. -/
def interruptible (registry : Registry) : List ThreadId :=
  (registry.members.filter (·.interruptible)).map (·.identity)

/-- Whoever wants to add or to remove an entry for the identity has to wait. Looking it up is always
possible. -/
def isLocked (registry : Registry) (identity : ThreadId) : Bool :=
  registry.claimed.contains identity || registry.held.contains identity

/-- First half of a registration: a party, and a claim on the identity. -/
def claim (registry : Registry) (identity : ThreadId) : Registry :=
  { registry with
    claimed := registry.claimed ++ [identity]
    phaser := registry.phaser.register }

/-- Second half of a registration: the entry takes the place of the claim. -/
def insert (registry : Registry) (entry : Registration) : Registry :=
  { registry with
    members := registry.members ++ [entry]
    claimed := registry.claimed.filter (· ≠ entry.identity) }

/-- First half of a deregistration. -/
def remove (registry : Registry) (identity : ThreadId) : Registry :=
  { registry with members := registry.members.filter (·.identity ≠ identity) }

/-- A visit comes to a member, which keeps it where it is. -/
def hold (registry : Registry) (identity : ThreadId) : Registry :=
  { registry with held := identity :: registry.held }

/-- A visit goes on from a member. Other visits may still stand there. -/
def release (registry : Registry) (identity : ThreadId) : Registry :=
  { registry with held := registry.held.erase identity }

def setPhaser (registry : Registry) (phaser : Phaser) : Registry :=
  { registry with phaser := phaser }

@[simp] theorem setPhaser_phaser (registry : Registry) (phaser : Phaser) :
    (registry.setPhaser phaser).phaser = phaser := rfl

@[simp] theorem setPhaser_members (registry : Registry) (phaser : Phaser) :
    (registry.setPhaser phaser).members = registry.members := rfl

@[simp] theorem setPhaser_claimed (registry : Registry) (phaser : Phaser) :
    (registry.setPhaser phaser).claimed = registry.claimed := rfl

@[simp] theorem setPhaser_held (registry : Registry) (phaser : Phaser) :
    (registry.setPhaser phaser).held = registry.held := rfl

@[simp] theorem hold_members (registry : Registry) (identity : ThreadId) :
    (registry.hold identity).members = registry.members := rfl

@[simp] theorem hold_phaser (registry : Registry) (identity : ThreadId) :
    (registry.hold identity).phaser = registry.phaser := rfl

@[simp] theorem release_members (registry : Registry) (identity : ThreadId) :
    (registry.release identity).members = registry.members := rfl

@[simp] theorem release_phaser (registry : Registry) (identity : ThreadId) :
    (registry.release identity).phaser = registry.phaser := rfl

/-- A visit that comes and goes leaves no trace. -/
@[simp] theorem release_hold (registry : Registry) (identity : ThreadId) :
    (registry.hold identity).release identity = registry := by
  simp [hold, release]

@[simp] theorem remove_phaser (registry : Registry) (identity : ThreadId) :
    (registry.remove identity).phaser = registry.phaser := rfl

@[simp] theorem insert_phaser (registry : Registry) (entry : Registration) :
    (registry.insert entry).phaser = registry.phaser := rfl

theorem isLocked_hold (registry : Registry) (identity : ThreadId) :
    (registry.hold identity).isLocked identity = true := by
  simp [isLocked, hold]

theorem contains_iff (registry : Registry) (identity : ThreadId) :
    registry.contains identity = true ↔ identity ∈ registry.identities := by
  simp [contains, identities]

theorem contains_eq_isSome (registry : Registry) (identity : ThreadId) :
    registry.contains identity = (registry.get? identity).isSome := by
  rw [Bool.eq_iff_iff]
  simp [contains, get?]

/-- An entry is found under its own identity. -/
theorem get?_identity {registry : Registry} {identity : ThreadId} {entry : Registration}
    (h : registry.get? identity = some entry) : entry.identity = identity := by
  simpa using List.find?_some h

end Registry

end StopTheWorld
