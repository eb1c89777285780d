import StopTheWorld.Duration

namespace StopTheWorld

/-- How a manager conducts its pauses. -/
structure Settings where
  /-- Whether a pause interrupts the registered threads that allow it. -/
  interruptBlocked : Bool := true
  /-- A pause longer than this is reported; none is without a threshold. -/
  slowThreshold : Option Nat := some (100 * Duration.millisecond)
  deriving DecidableEq, Inhabited

namespace Settings

def standard : Settings := {}

def withInterruptBlocked (settings : Settings) (interruptBlocked : Bool) : Settings :=
  { settings with interruptBlocked := interruptBlocked }

def withSlowThreshold (settings : Settings) (threshold : Option Nat) : Settings :=
  { settings with slowThreshold := threshold }

def isSlow (settings : Settings) (pause : Nat) : Bool :=
  settings.slowThreshold.any (· < pause)

end Settings

end StopTheWorld
