namespace StopTheWorld

/-- What others use to cut a thread's wait short: a flag, the callback to run when it is raised,
and the one token that a wake-up leaves for a thread that is not parked. -/
structure Interrupter (κ : Type) where
  interrupted : Bool := false
  callback : Option κ := none
  token : Bool := false
  deriving DecidableEq

namespace Interrupter

variable {κ : Type}

instance : Inhabited (Interrupter κ) := ⟨{}⟩

def raise (interrupter : Interrupter κ) : Interrupter κ := { interrupter with interrupted := true }

/-- Whoever looks at the flag takes it down. -/
def lower (interrupter : Interrupter κ) : Interrupter κ := { interrupter with interrupted := false }

/-- The callback in place until now is not lost: the guard of the new one keeps it. -/
def install (interrupter : Interrupter κ) (callback : Option κ) : Interrupter κ :=
  { interrupter with callback := callback }

/-- Leaves a token; a second one adds nothing. -/
def unpark (interrupter : Interrupter κ) : Interrupter κ := { interrupter with token := true }

def consume (interrupter : Interrupter κ) : Interrupter κ := { interrupter with token := false }

@[simp] theorem raise_interrupted (interrupter : Interrupter κ) :
    interrupter.raise.interrupted = true := rfl

@[simp] theorem lower_interrupted (interrupter : Interrupter κ) :
    interrupter.lower.interrupted = false := rfl

@[simp] theorem install_interrupted (interrupter : Interrupter κ) (callback : Option κ) :
    (interrupter.install callback).interrupted = interrupter.interrupted := rfl

@[simp] theorem install_callback (interrupter : Interrupter κ) (callback : Option κ) :
    (interrupter.install callback).callback = callback := rfl

@[simp] theorem unpark_token (interrupter : Interrupter κ) :
    interrupter.unpark.token = true := rfl

end Interrupter

end StopTheWorld
