import StopTheWorld.Machine.World

namespace StopTheWorld

/-! Arriving at phasers, and going in and out of registries. -/

/-- The last arrival goes on at once. Any other waits until the phase it arrived at is over, and
replies whatever phase it then finds. -/
def Arrival.advance (a : Arrival) (w : World) : Option Effect :=
  let phaser := w.phaser a.phaser
  match a.recorded with
  | none =>
    let w := w.setPhaser a.phaser phaser.arrive
    if phaser.IsLast then
      Effect.reply w (.count (phaser.phase + 1))
        [.arrived a.phaser phaser.phase, .advanced a.phaser (phaser.phase + 1)]
    else
      Effect.goto w (.arrival { a with recorded := some phaser.phase })
        [.arrived a.phaser phaser.phase]
  | some phase =>
    if phaser.phase = phase then none else Effect.reply w (.count phaser.phase)

/-- Departing from a phaser without parties is an error in the caller's logic. It unwinds and
leaves the phaser as it is. -/
def World.depart (w : World) (ref : PhaserRef) : Except String (World × Nat × List Note) :=
  let phaser := w.phaser ref
  if phaser.parties = 0 then .error "deregistering from an empty phaser"
  else
    let next := phaser.depart
    let advance := if next.phase = phaser.phase then [] else [.advanced ref next.phase]
    .ok (w.setPhaser ref next, next.phase, .departed ref :: advance)

/-- An identity that is present is not added again. Whether it is shows only when its entry is not
locked. -/
def Enrolment.advance (e : Enrolment) (w : World) : Option Effect :=
  let registry := w.registry e.registry
  let identity := e.entry.identity
  match e.point with
  | .claim =>
    if registry.isLocked identity then none
    else if registry.contains identity then Effect.reply w (.truth false)
    else
      Effect.goto (w.modifyRegistry e.registry (·.claim identity))
        (.enrolment { e with point := .insert }) [.registered (.registry e.registry)]
  | .insert =>
    Effect.reply (w.modifyRegistry e.registry (·.insert e.entry)) (.truth true)
      [.inserted e.registry identity]

def Withdrawal.advance (x : Withdrawal) (w : World) : Option Effect :=
  let registry := w.registry x.registry
  match x.point with
  | .remove =>
    if registry.isLocked x.identity then none
    else
      match registry.get? x.identity with
      | none => Effect.reply w (.registration none)
      | some entry =>
        Effect.goto (w.modifyRegistry x.registry (·.remove x.identity))
          (.withdrawal { x with removed := some (w.viewRegistration entry), point := .depart })
          [.removed x.registry x.identity]
  | .depart =>
    match w.depart (.registry x.registry) with
    | .error message => Effect.unwind w message
    | .ok (w, _, notes) => Effect.reply w (.registration x.removed) notes

/-- A member that has gone since the visit began is passed over. One that is there cannot go while its
callback runs. A callback that unwinds ends the visit, and the member is released on the way out. -/
def Visit.advance (v : Visit) (w : World) : Option Effect :=
  let registry := w.registry v.registry
  match v.point, v.todo with
  | .begin, _ =>
    let todo := registry.interruptible.filter fun identity => v.except != some identity
    Effect.goto w (.visit { v with todo := todo, point := .next })
  | .next, [] => Effect.reply w (.threads v.seen)
  | .next, identity :: rest =>
    if registry.interruptible.contains identity then
      let v := { v with todo := rest, seen := v.seen ++ [identity] }
      if v.interrupt then
        Effect.call (w.modifyRegistry v.registry (·.hold identity))
          (.interruption { target := identity }) (.visit { v with point := .release identity })
      else Effect.goto w (.visit v)
    else Effect.goto w (.visit { v with todo := rest })
  | .release identity, _ =>
    Effect.goto (w.modifyRegistry v.registry (·.release identity))
      (.visit { v with point := .next })
  | .abandon identity message, _ =>
    Effect.unwind (w.modifyRegistry v.registry (·.release identity)) message

end StopTheWorld
