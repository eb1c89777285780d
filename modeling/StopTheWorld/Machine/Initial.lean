import StopTheWorld.Machine.World

namespace StopTheWorld.World

/-- A world in which nothing has happened: the threads of these names, all idle and each with a
record of its own, and these managers. Locks, phasers and registries are there as they are named. -/
def initial (names : List (Option String)) (managers : List Manager) : World where
  threads := .ofList (names.zipIdx.map fun (name, i) => { name := name, record := i })
  records := .ofList (names.zipIdx.map fun (name, i) => { thread := i, name := name })
  nextRecord := names.length
  managers := .ofList managers

/-- The events that each subscription has received, taken off its queue. -/
def collect (w : World) : World × List (String × List Event) :=
  w.subscriptions.foldl
    (fun (w, received) s =>
      let (events, bus) := (w.manager s.manager).bus.drain s.key
      (w.modifyManager s.manager fun m => { m with bus := bus }, received ++ [(s.name, events)]))
    (w, [])

end StopTheWorld.World
