/-! Spans of time, and moments counted from the start of the world, are numbers of nanoseconds. -/

namespace StopTheWorld.Duration

def millisecond : Nat := 1000000

def second : Nat := 1000000000

/-- What a 64-bit count of nanoseconds can hold. -/
def wordLimit : Nat := Nat.pow 2 64

/-- The moments that a clock can show come before this one: it counts whole seconds in a signed
64-bit number. -/
def clockLimit : Nat := Nat.pow 2 63 * second

/-- The decimal digits of a proper fraction of `10 ^ places`, without the zeros at its end. -/
private def fractionDigits : Nat → Nat → List Char
  | 0, _ => []
  | places + 1, rest =>
    if rest = 0 then []
    else
      let scale := Nat.pow 10 places
      Char.ofNat (48 + rest / scale % 10) :: fractionDigits places (rest % scale)

private def inUnits (duration places : Nat) (unit : String) : String :=
  let scale := Nat.pow 10 places
  let fraction := fractionDigits places (duration % scale)
  let point := if fraction.isEmpty then "" else "."
  toString (duration / scale) ++ point ++ String.ofList fraction ++ unit

/-- The duration in the largest of the units s, ms, µs and ns that it fills at least once, with
exactly the decimals it needs. -/
def describe (duration : Nat) : String :=
  if second ≤ duration then inUnits duration 9 "s"
  else if millisecond ≤ duration then inUnits duration 6 "ms"
  else if 1000 ≤ duration then inUnits duration 3 "µs"
  else inUnits duration 0 "ns"

end StopTheWorld.Duration
