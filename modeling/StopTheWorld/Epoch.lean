import StopTheWorld.Failure

namespace StopTheWorld

/-- The token of an epoch. Threads run freely while the current token is valid; a pause begins by
invalidating it and ends with a successor in its place. -/
structure Epoch where
  generation : Nat := 0
  valid : Bool := true
  deriving DecidableEq, Inhabited

namespace Epoch

def first : Epoch := ⟨0, true⟩

/-- A fresh token. Its validity does not depend on that of the token it succeeds. -/
def successor (epoch : Epoch) : Epoch := ⟨epoch.generation + 1, true⟩

def invalidate (epoch : Epoch) : Epoch := { epoch with valid := false }

def check (epoch : Epoch) : Except Failure Unit :=
  if epoch.valid then .ok () else .error .epochInvalidated

@[simp] theorem successor_valid (epoch : Epoch) : epoch.successor.valid = true := rfl

@[simp] theorem successor_generation (epoch : Epoch) :
    epoch.successor.generation = epoch.generation + 1 := rfl

@[simp] theorem invalidate_valid (epoch : Epoch) : epoch.invalidate.valid = false := rfl

@[simp] theorem invalidate_generation (epoch : Epoch) :
    epoch.invalidate.generation = epoch.generation := rfl

theorem invalidate_invalidate (epoch : Epoch) :
    epoch.invalidate.invalidate = epoch.invalidate := rfl

end Epoch

end StopTheWorld
