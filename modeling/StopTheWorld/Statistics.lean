import StopTheWorld.Duration

namespace StopTheWorld

/-- The running counts of a manager. Times are 64-bit words of nanoseconds: a single pause counts at
most as much as a word can hold, and the total is kept modulo the size of a word. -/
structure Statistics where
  pauses : Nat := 0
  /-- How often a poll found the epoch invalidated. -/
  slowPolls : Nat := 0
  total : Nat := 0
  longest : Nat := 0
  deriving DecidableEq, Inhabited

namespace Statistics

/-- What a pause of this duration counts for. -/
def capped (duration : Nat) : Nat := min duration (Duration.wordLimit - 1)

def recordPause (statistics : Statistics) (duration : Nat) : Statistics :=
  { statistics with
    pauses := statistics.pauses + 1
    total := (statistics.total + capped duration) % Duration.wordLimit
    longest := max statistics.longest (capped duration) }

def recordSlowPoll (statistics : Statistics) : Statistics :=
  { statistics with slowPolls := statistics.slowPolls + 1 }

/-- The total shared evenly among the pauses, rounded down and cut to a word; zero without any. -/
def averageOf (pauses : Nat) (total : Nat) : Nat :=
  if pauses = 0 then 0 else total / pauses % Duration.wordLimit

def average (statistics : Statistics) : Nat := averageOf statistics.pauses statistics.total

@[simp] theorem recordPause_pauses (statistics : Statistics) (duration : Nat) :
    (statistics.recordPause duration).pauses = statistics.pauses + 1 := rfl

@[simp] theorem recordPause_slowPolls (statistics : Statistics) (duration : Nat) :
    (statistics.recordPause duration).slowPolls = statistics.slowPolls := rfl

@[simp] theorem recordSlowPoll_pauses (statistics : Statistics) :
    statistics.recordSlowPoll.pauses = statistics.pauses := rfl

@[simp] theorem recordSlowPoll_slowPolls (statistics : Statistics) :
    statistics.recordSlowPoll.slowPolls = statistics.slowPolls + 1 := rfl

theorem capped_lt (duration : Nat) : capped duration < Duration.wordLimit := by
  have positive : 0 < Duration.wordLimit := by decide
  unfold capped
  omega

end Statistics

end StopTheWorld
