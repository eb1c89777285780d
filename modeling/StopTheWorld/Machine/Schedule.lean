import StopTheWorld.Machine.Step

namespace StopTheWorld

/-! One way to run a world: the threads take turns until each of them is idle or has to wait. -/

namespace World

/-- Every thread that can takes one step, and a nanosecond passes with each. The flag tells whether
any did. -/
def turn (w : World) : List ThreadId → World × List (ThreadId × Note) × Bool
  | [] => (w, [], false)
  | thread :: rest =>
    match w.step thread with
    | none => w.turn rest
    | some (w, notes) =>
      let (w, later, _) := (w.elapse 1).turn rest
      (w, notes.map ((thread, ·)) ++ later, true)

/-- The deadline of a thread that sleeps for less than a second. -/
def nap? (w : World) (thread : ThreadId) : Option Nat :=
  match (w.thread thread).stack with
  | .sleeping s :: _ =>
    if s.point = .doze ∧ s.span < Duration.second then some s.deadline else none
  | _ => none

/-- Runs the threads given in turns. When none can go on, the clock moves to the end of the shortest
nap; a longer sleep is a wait like any other. -/
def settle (threads : List ThreadId) : Nat → World → World × List (ThreadId × Note)
  | 0, w => (w, [])
  | fuel + 1, w =>
    match w.turn threads with
    | (w, notes, true) =>
      let (w, later) := settle threads fuel w
      (w, notes ++ later)
    | (w, _, false) =>
      match (threads.filterMap w.nap?).min? with
      | none => (w, [])
      | some deadline => settle threads fuel (w.elapse (deadline - w.now))

/-- Tells a thread what to do and lets everything come to rest. There is no answer if the thread is
still busy with something else. -/
def perform (w : World) (threads : List ThreadId) (fuel : Nat) (thread : ThreadId) (op : Op) :
    Option (World × List (ThreadId × Note)) :=
  (w.submit thread op).map (settle threads fuel)

end World

end StopTheWorld
