import StopTheWorld.Proofs.Concurrence

namespace StopTheWorld

/-! What every move keeps of an assembly that is under way. -/

section

variable {a : Assembly} {self : ThreadId} {w v : World} {frame : Frame} {rest : List Frame}
  {effect : Effect}

theorem Op.abides {op : Op} (inner : (Frame.start op).Partakes a self rest)
    (step : op.advance self w = some effect) : effect.control.Partakes a self rest := by
  cases op with
  | log | unwind | defer =>
    obtain rfl := Option.some.inj step
    simp [Control.Partakes]
  | deferLookup =>
    simp only [Op.advance] at step
    split at step <;> obtain rfl := Option.some.inj step <;> simp [Control.Partakes]
  | seq ops =>
    obtain rfl := Option.some.inj step
    have isLocal : areLocal a.manager ops = true := by
      simpa [Frame.Partakes, Op.isLocal] using inner
    exact isLocal
  | replicate times op =>
    obtain rfl := Option.some.inj step
    exact areLocal_replicate _ times (by simpa [Frame.Partakes, Op.isLocal] using inner)
  | only threads op =>
    obtain rfl := Option.some.inj step
    exact .inl (by simpa [Frame.Partakes, Op.isLocal] using inner)
  | pollFree m =>
    obtain rfl := Option.some.inj step
    obtain ⟨rfl, -⟩ := inner.resolve_left (by simp [Op.isLocal])
    exact ⟨rfl, rfl, by simp⟩
  | pauseWith m holdsGlobal action =>
    obtain rfl := Option.some.inj step
    obtain ⟨rfl, call⟩ := inner.resolve_left (by simp [Op.isLocal])
    obtain ⟨driver, same⟩ := call.resolve_left (by simp)
    obtain ⟨rfl, rfl, rfl⟩ := Op.pauseWith.inj same
    exact ⟨driver, rfl, rfl, rfl, by simp⟩
  | _ => simp [Frame.Partakes, Op.isLocal] at inner

theorem Script.abides {s : Script} (inner : (Frame.script s).Partakes a self rest)
    (step : s.advance self w = some effect) : effect.control.Partakes a self rest := by
  obtain ⟨last, ops⟩ := s
  cases last with
  | some =>
    obtain rfl := Option.some.inj step
    exact inner
  | none =>
    cases ops with
    | nil =>
      obtain rfl := Option.some.inj step
      simp [Control.Partakes]
    | cons op ops =>
      simp only [Frame.Partakes, areLocal_cons, Bool.and_eq_true] at inner
      simp only [Script.advance] at step
      split at step <;> obtain rfl := Option.some.inj step
      · exact inner.2
      · exact ⟨.inl (Op.isLocal_unguarded inner.1), inner.2, rfl⟩

theorem Sequence.abides {s : Sequence} (inner : (Frame.sequence s).Partakes a self rest)
    (step : s.advance w = some effect) : effect.control.Partakes a self rest := by
  obtain ⟨replies, ops⟩ := s
  cases ops with
  | nil =>
    obtain rfl := Option.some.inj step
    simp [Control.Partakes]
  | cons op ops =>
    simp only [Frame.Partakes, areLocal_cons, Bool.and_eq_true] at inner
    obtain rfl := Option.some.inj step
    exact ⟨.inl (Op.isLocal_unguarded inner.1), inner.2, rfl⟩

theorem Drain.abides {d : Drain} (assembled : w.Assembled a)
    (stack : w.stack self = .drain d :: rest) (step : d.advance w = some effect) :
    effect.control.Partakes a self rest := by
  have partakes := assembled.partakes self
  have here := assembled.guests self (by simp [stack])
  have bears : w.Owns d.record self := assembled.owned.frames self (.drain d) (by simp [stack])
  rw [stack] at partakes
  have inner := partakes.1
  obtain ⟨record, queue, ran, point⟩ := d
  cases point with
  | take =>
    obtain rfl := Option.some.inj step
    exact assembled.queues record (bears.own.symm ▸ here)
  | run =>
    cases queue with
    | nil =>
      obtain rfl := Option.some.inj step
      simp [Control.Partakes]
    | cons action queue =>
      obtain rfl := Option.some.inj step
      obtain ⟨first, later⟩ := List.forall_mem_cons.mp inner
      exact ⟨first, later, rfl⟩

theorem Phases.abides {p : Phases} (assembled : w.Assembled a)
    (stack : w.stack self = .phases p :: rest) (step : p.advance w = some effect) :
    effect.control.Partakes a self rest := by
  have sound := assembled.coherent.sound self
  have partakes := assembled.partakes self
  rw [stack] at sound partakes
  have manager : p.manager = a.manager := sound.1.1
  have inner := partakes.1
  cases point : p.point with
  | first | second | third =>
    simp only [Phases.advance, point] at step
    obtain rfl := Option.some.inj step
    exact ⟨by simp [Frame.Partakes, manager], inner, rfl⟩
  | republish =>
    simp only [Phases.advance, point] at step
    obtain rfl := Option.some.inj step
    exact inner
  | choose =>
    simp only [Phases.advance, point, manager, assembled.action_found stack point] at step
    repeat' split at step
    all_goals obtain rfl := Option.some.inj step
    · exact inner
    · rename_i record action _ found _
      obtain rfl := Option.some.inj found
      exact ⟨a.isLocal, inner, rfl⟩
    · exact inner
  | finish =>
    simp only [Phases.advance, point] at step
    obtain rfl := Option.some.inj step
    refine .inr fun failure => ?_
    cases p.outcome <;> simp

theorem Resuming.abides {r : Resuming} (inner : (Frame.resuming r).Partakes a self rest)
    (step : r.advance self w = some effect) : effect.control.Partakes a self rest := by
  have free : r.holdsGlobal = false := inner
  cases point : r.point with
  | reacquire =>
    simp only [Resuming.advance, point, free] at step
    obtain rfl := Option.some.inj step
    rfl
  | settle =>
    simp only [Resuming.advance, point] at step
    split at step <;> obtain rfl := Option.some.inj step
    · trivial
    · simp [Control.Partakes]
    · exact ⟨by simp [Frame.Partakes], free, rfl⟩
  | drained =>
    simp only [Resuming.advance, point] at step
    obtain rfl := Option.some.inj step
    simp [Control.Partakes]

theorem Polling.abides {p : Polling} (inner : (Frame.polling p).Partakes a self rest)
    (step : p.advance self w = some effect) : effect.control.Partakes a self rest := by
  obtain ⟨rfl, free, away⟩ := inner
  cases point : p.point with
  | leaveGlobal => exact absurd point away
  | lookup =>
    simp only [Polling.advance, point, free, Bool.false_eq_true, if_false] at step
    split at step <;> obtain rfl := Option.some.inj step
    · exact .inl rfl
    · exact ⟨rfl, rfl, by simp⟩
  | check =>
    simp only [Polling.advance, point] at step
    split at step <;> obtain rfl := Option.some.inj step
    · exact .inl rfl
    · exact ⟨rfl, free, by simp⟩
  | count =>
    simp only [Polling.advance, point] at step
    obtain rfl := Option.some.inj step
    exact ⟨rfl, free, by simp⟩
  | enterPhases =>
    simp only [Polling.advance, point] at step
    obtain rfl := Option.some.inj step
    exact ⟨by simp [Frame.Partakes], ⟨rfl, free, by simp⟩, rfl⟩
  | exitPhases =>
    simp only [Polling.advance, point] at step
    obtain rfl := Option.some.inj step
    exact free

theorem Acquisition.abides {x : Acquisition} (assembled : w.Assembled a)
    (stack : w.stack self = .acquisition x :: rest) (step : x.advance self w = some effect) :
    effect.control.Partakes a self rest := by
  have partakes := assembled.partakes self
  rw [stack] at partakes
  obtain ⟨driver, lock, owner, patience, point⟩ := partakes.1
  obtain point | point | point := point
  · simp only [Acquisition.advance, patience, point] at step
    obtain rfl := Option.some.inj step
    exact ⟨driver, lock, owner, rfl, .inr (.inl rfl)⟩
  · rw [assembled.takes stack point] at step
    obtain rfl := Option.some.inj step
    exact ⟨driver, lock, owner, patience, .inr (.inr rfl)⟩
  · simp only [Acquisition.advance, patience, point] at step
    obtain rfl := Option.some.inj step
    simp [Control.Partakes]

theorem Visit.abides {x : Visit} (inner : (Frame.visit x).Partakes a self rest)
    (step : x.advance w = some effect) : effect.control.Partakes a self rest := by
  obtain ⟨driver, registry, except, away⟩ := inner
  cases point : x.point with
  | begin =>
    simp only [Visit.advance, point] at step
    obtain rfl := Option.some.inj step
    exact ⟨driver, registry, except, by simp [except]⟩
  | next =>
    cases todo : x.todo with
    | nil =>
      simp only [Visit.advance, point, todo] at step
      obtain rfl := Option.some.inj step
      simp [Control.Partakes]
    | cons identity later =>
      rw [todo, List.mem_cons, not_or] at away
      simp only [Visit.advance, point, todo] at step
      repeat' split at step
      all_goals obtain rfl := Option.some.inj step
      · exact ⟨⟨driver, Ne.symm away.1⟩, ⟨driver, registry, except, away.2⟩, rfl⟩
      · exact ⟨driver, registry, except, away.2⟩
      · exact ⟨driver, registry, except, away.2⟩
  | release identity =>
    simp only [Visit.advance, point] at step
    obtain rfl := Option.some.inj step
    exact ⟨driver, registry, except, away⟩
  | abandon identity message =>
    simp only [Visit.advance, point] at step
    obtain rfl := Option.some.inj step
    trivial

theorem Interruption.abides {i : Interruption} (assembled : w.Assembled a)
    (inner : (Frame.interruption i).Partakes a self rest) (step : i.advance w = some effect) :
    effect.control.Partakes a self rest := by
  obtain ⟨rfl, away⟩ := inner
  cases point : i.point with
  | unpark =>
    simp only [Interruption.advance, point] at step
    obtain rfl := Option.some.inj step
    simp [Control.Partakes]
  | _ =>
    simp only [Interruption.advance, point, assembled.callbacks _ away] at step
    obtain rfl := Option.some.inj step
    exact ⟨rfl, away⟩

theorem Pausing.abides {p : Pausing} (assembled : w.Assembled a)
    (stack : w.stack self = .pausing p :: rest) (step : p.advance self w = some effect) :
    effect.control.Partakes a self rest := by
  have sound := assembled.coherent.sound self
  have partakes := assembled.partakes self
  rw [stack] at sound partakes
  have manager : p.manager = a.manager := sound.1.1
  obtain ⟨driver, rfl, free, action, away⟩ := partakes.1
  cases point : p.point with
  | poll => exact absurd point away
  | abandon => exact absurd point sound.1.2.1
  | lock =>
    simp only [Pausing.advance, point] at step
    obtain rfl := Option.some.inj step
    exact ⟨⟨driver, by simp [Acquisition.begin, manager], rfl, by simp [Acquisition.begin, manager],
      .inl rfl⟩, ⟨driver, rfl, free, action, by simp⟩, rfl⟩
  | wakeWaiters | unlock =>
    simp only [Pausing.advance, point] at step
    obtain rfl := Option.some.inj step
    refine ⟨⟨driver, by rw [manager]⟩, ⟨driver, rfl, free, action, ?_⟩, rfl⟩
    dsimp only
    repeat' split
    all_goals simp
  | interrupt =>
    simp only [Pausing.advance, point] at step
    obtain rfl := Option.some.inj step
    exact ⟨⟨driver, by rw [manager], rfl, by simp⟩, ⟨driver, rfl, free, action, by simp⟩, rfl⟩
  | enterPhases =>
    simp only [Pausing.advance, point] at step
    obtain rfl := Option.some.inj step
    exact ⟨fun _ => driver, ⟨driver, rfl, free, action, by simp⟩, rfl⟩
  | resume =>
    simp only [Pausing.advance, point] at step
    obtain rfl := Option.some.inj step
    exact ⟨free, ⟨driver, by simp⟩, rfl⟩
  | gate | lookup =>
    simp only [Pausing.advance, point] at step
    split at step <;> obtain rfl := Option.some.inj step
    · exact .inl rfl
    · exact ⟨driver, rfl, free, action, by simp⟩
  | leaveGlobal =>
    simp only [Pausing.advance, point, free] at step
    obtain rfl := Option.some.inj step
    exact ⟨driver, rfl, rfl, action, by simp⟩
  | _ =>
    simp only [Pausing.advance, point] at step
    obtain rfl := Option.some.inj step
    exact ⟨driver, rfl, free, action, by simp⟩

/-- A participant goes on as one. -/
theorem Frame.abides (assembled : w.Assembled a) (stack : w.stack self = frame :: rest)
    (step : frame.advance self w = some effect) : effect.control.Partakes a self rest := by
  have partakes := assembled.partakes self
  rw [stack] at partakes
  have inner := partakes.1
  cases frame with
  | start op => exact Op.abides inner step
  | answer reply =>
    obtain rfl := Option.some.inj step
    exact .inr inner.2
  | script s => exact s.abides inner step
  | sequence s => exact s.abides inner step
  | resuming r => exact r.abides inner step
  | drain d => exact d.abides assembled stack step
  | phases p => exact p.abides assembled stack step
  | arrival x =>
    simp only [Frame.advance, Arrival.advance] at step
    repeat' split at step
    all_goals first
      | (obtain rfl := Option.some.inj step
         first
           | exact inner
           | simp [Control.Partakes])
      | simp at step
  | polling p => exact p.abides inner step
  | pausing p => exact p.abides assembled stack step
  | acquisition x => exact x.abides assembled stack step
  | release lock point =>
    cases point with
    | clear =>
      simp only [Frame.advance, Release.advance] at step
      split at step
      · obtain rfl := Option.some.inj step
        exact inner
      · simp at step
    | notify =>
      obtain rfl := Option.some.inj step
      simp [Control.Partakes]
  | notify lock =>
    simp only [Frame.advance, OwnedLock.advanceNotify] at step
    split at step
    · obtain rfl := Option.some.inj step
      simp [Control.Partakes]
    · simp at step
  | visit x => exact x.abides inner step
  | interruption i => exact i.abides assembled inner step
  | _ => exact inner.elim

/-- Nobody sees the phaser move but by being released from it. -/
theorem Touch.Makes.setPhaser (w : World) {phaser : Phaser}
    (parties : phaser.parties = (w.manager a.manager).registry.phaser.parties) :
    Touch.nothing.Makes a self w (w.setPhaser (.registry (.manager a.manager)) phaser) :=
  .unseen ⟨rfl, rfl, parties, rfl⟩ rfl rfl id

theorem Arrival.makes {x : Arrival} (phaser : x.phaser = .registry (.manager a.manager))
    (step : x.advance w = some effect) :
    Touch.nothing.Makes a self w effect.world ∧ effect.notes.filter (·.isOwn) = [] ∧
      effect.notes.countP (·.isSlowPoll) = 0 ∧
      ((∃ phase, effect.control = .goto (.arrival { x with recorded := some phase })) ∨
        ∃ phase, effect.control = .reply (.count phase)) := by
  have arrives : Touch.nothing.Makes a self w
      (w.setPhaser x.phaser (w.phaser x.phaser).arrive) := by
    rw [phaser]
    exact .setPhaser w (Phaser.arrive_parties _)
  simp only [Arrival.advance] at step
  repeat' split at step
  all_goals first
    | obtain rfl := Option.some.inj step
    | simp at step
  · exact ⟨arrives, rfl, rfl, .inr ⟨_, rfl⟩⟩
  · exact ⟨arrives, rfl, rfl, .inl ⟨_, rfl⟩⟩
  · exact ⟨.refl w, rfl, rfl, .inr ⟨_, rfl⟩⟩

theorem Touch.Makes.setStack {touch : Touch} (makes : touch.Makes a self w v)
    (stack : List Frame) : touch.Makes a self w (v.setStack self stack) := by
  have same (thread : ThreadId) : (v.setStack self stack).outlook a thread = v.outlook a thread := by
    have interrupters : (v.setStack self stack).interrupter = v.interrupter := by
      funext other
      simp
    ext1
    case inPause => exact World.inPause_setStack v self thread stack
    case record =>
      simp only [World.outlook, World.recordOf, World.thread_setStack]
      split
      · rename_i own
        rw [own]
      · rfl
    case command =>
      simp only [World.outlook, World.command, interrupters]
      rfl
    all_goals rfl
  exact ⟨(same self).trans makes.own, fun other ne => (same other).trans (makes.others other ne),
    makes.polls, makes.vacant⟩

namespace Touch

@[simp] theorem books_thread (touch : Touch) (record : RecordId) (value : Record Deferred) :
    (touch.books record value).thread = value.thread := by
  cases touch with
  | defer | drain =>
    simp only [books]
    split <;> rfl
  | _ => rfl

theorem orders_callback {touch : Touch} {thread : ThreadId} {command : Command}
    (other : thread ≠ self) : ((touch.orders self command).interrupters thread).callback =
      (command.interrupters thread).callback := by
  cases touch with
  | raise target | unpark target =>
    simp only [orders]
    split
    · rename_i same
      rw [same]
      rfl
    · rfl
  | install => simp [orders, other]
  | _ => rfl

theorem IsLocal.books {m : ManagerId} {touch : Touch} {record : RecordId} {value : Record Deferred}
    (isLocal : touch.IsLocal m)
    (queue : ∀ queued ∈ value.deferred, areLocal m queued.script = true) :
    ∀ queued ∈ (touch.books record value).deferred, areLocal m queued.script = true := by
  cases touch with
  | defer own action =>
    simp only [Touch.books]
    split
    · intro queued mem
      obtain old | new := List.mem_append.mp mem
      · exact queue queued old
      · rw [List.mem_singleton.mp new]
        exact isLocal
    · exact queue
  | drain own =>
    simp only [Touch.books]
    split
    · simp
    · exact queue
  | _ => exact queue

end Touch

namespace World.Assembled

theorem touches (assembled : w.Assembled a) (stack : w.stack self = frame :: rest)
    (step : frame.advance self w = some effect) : ∃ touch : Touch,
      touch.Makes a self w effect.world ∧ effect.notes.countP (·.isSlowPoll) = touch.polls ∧
        touch.IsLocal a.manager := by
  by_cases arrival : ∃ x, frame = .arrival x
  · obtain ⟨x, rfl⟩ := arrival
    have partakes := assembled.partakes self
    rw [stack] at partakes
    obtain ⟨makes, -, polls, -⟩ := x.makes partakes.1 step
    exact ⟨_, makes, polls, trivial⟩
  · obtain ⟨touch, concurs⟩ := Frame.concurs ⟨assembled, assembled, rfl⟩ stack stack rfl
      (fun x same => arrival ⟨x, same⟩) (fun _ _ _ => rfl) step step
    exact ⟨touch, concurs.first, concurs.polls, concurs.isLocal⟩

/-- Participants are orderly. -/
theorem isKnown (assembled : w.Assembled a) (stack : w.stack self = frame :: rest) :
    Known a.manager w self := by
  have here := assembled.guests self (by simp [stack])
  have partakes := assembled.partakes self
  have free {frame : Frame} {rest : List Frame} (stack : w.stack self = frame :: rest) :
      inCallback rest = false := by
    rw [stack] at partakes
    exact partakes.2.1
  refine ⟨⟨?_, ?_, ?_, ?_⟩, assembled.known self here⟩
  · intro op rest stack
    rw [stack] at partakes
    obtain isLocal | ⟨-, rfl | ⟨-, rfl⟩⟩ := partakes.1
    · left
      cases op <;> first | rfl | simp [Op.isLocal] at isLocal
    · exact .inr rfl
    · exact .inr rfl
  · intro op rest stack inside
    simp [free stack] at inside
  · intro frame rest effect stack inside
    simp [free stack] at inside
  · intro rest stack
    rw [stack] at partakes
    have inner := partakes.1
    simp [Frame.Partakes, Op.isLocal] at inner

/-- An assembly goes on in a world where nothing but this has changed. -/
theorem carry {touch : Touch} (assembled : w.Assembled a) (makes : touch.Makes a self w v)
    (isLocal : touch.IsLocal a.manager) (coherent : v.Coherent a.manager)
    (owned : v.IsOwned a.manager)
    (owns : ∀ {record thread}, w.Owns record thread → v.Owns record thread)
    (partakes : ∀ thread, Partakes a thread (v.stack thread))
    (guests : ∀ thread, v.stack thread ≠ [] → w.stack thread ≠ []) : v.Assembled a := by
  have identities : (v.core a.manager).identities = (w.core a.manager).identities :=
    congrArg (List.map Registration.identity) makes.members
  refine ⟨coherent, owned, ?_, partakes, ?_, ?_, ?_, makes.vacant assembled.vacant⟩
  · intro thread here
    rw [makes.recordOf]
    exact owns (assembled.known thread (identities ▸ here))
  · intro thread busy
    rw [identities]
    exact assembled.guests thread (guests thread busy)
  · intro record here queued mem
    rw [identities, makes.record] at here
    rw [makes.record] at mem
    split at mem
    · rename_i own
      rw [if_pos own, Touch.books_thread] at here
      exact isLocal.books (assembled.queues record here) queued mem
    · rename_i other
      rw [if_neg other] at here
      exact assembled.queues record here queued mem
  · intro thread other
    have callback : (v.command a.manager).interrupters thread = v.interrupter thread := rfl
    rw [← callback, makes.command]
    split
    · rename_i driver
      rw [Touch.orders_callback (driver ▸ other)]
      exact assembled.callbacks thread other
    · exact assembled.callbacks thread other

/-- A step of a participant keeps the assembly under way. -/
theorem step {notes : List Note} (assembled : w.Assembled a)
    (step : w.step self = some (v, notes)) : v.Assembled a ∧ ∃ touch : Touch,
      touch.Makes a self w v ∧ notes.countP (·.isSlowPoll) = touch.polls := by
  have moved : w.move (.run self) = some (v, notes) := step
  obtain ⟨frame, rest, effect, stack, advance, same, told⟩ := World.step_eq_some step
  have known := assembled.isKnown stack
  obtain ⟨touch, makes, polls, isLocal⟩ := assembled.touches stack advance
  have makes : touch.Makes a self w v := same ▸ makes.setStack _
  have partakes : Partakes a self (frame :: rest) := stack ▸ assembled.partakes self
  have goes := Frame.abides assembled stack advance
  have standing (thread : ThreadId) : v.stack thread =
      if thread = self then effect.control.stack rest else w.stack thread := by
    rw [same, World.stack_setStack, Frame.advance_stack advance]
  refine ⟨assembled.carry makes isLocal (assembled.coherent.step known.toOrderly step).1
    (assembled.owned.step_of_known assembled.coherent known step) (·.move moved) ?_ ?_, touch, makes, ?_⟩
  · intro thread
    rw [standing]
    split
    · rename_i own
      exact own ▸ partakes.step goes
    · exact assembled.partakes thread
  · intro thread busy
    rw [standing] at busy
    split at busy
    · rename_i own
      simp [own, stack]
    · exact busy
  · rw [told, List.countP_append, polls]
    have quiet : (effect.control.completion rest).countP (·.isSlowPoll) = 0 := by
      rw [List.countP_eq_zero]
      intro note mem
      obtain ⟨value, rfl⟩ := Control.completed_of_mem mem
      simp [Note.isSlowPoll]
    rw [quiet, Nat.add_zero]

/-- So does all that happens from outside, but that another thread is told what to do. -/
theorem idle {move : Move} {notes : List Note} (assembled : w.Assembled a)
    (idle : ∀ thread, move ≠ .run thread) (alone : ∀ thread op, move ≠ .submit thread op)
    (moves : w.move move = some (v, notes)) :
    v.Assembled a ∧ Touch.nothing.Makes a a.driver w v ∧ ∀ thread, v.stack thread = w.stack thread := by
  have coherent := (assembled.coherent.move (fun thread runs => absurd runs (idle thread)) moves).1
  have owned := assembled.owned.move assembled.coherent
    (fun thread runs => absurd runs (idle thread)) moves
  have lasts : Touch.nothing.Makes a a.driver w v ∧ ∀ thread, v.stack thread = w.stack thread := by
    cases move with
    | run thread => exact absurd rfl (idle thread)
    | submit thread op => exact absurd rfl (alone thread op)
    | elapse span =>
      obtain ⟨rfl, -⟩ := Prod.mk.inj (Option.some.inj moves)
      exact ⟨⟨by rw [Touch.on_nothing]; rfl, fun _ _ => rfl, rfl, id⟩, fun _ => rfl⟩
    | rouse thread =>
      obtain ⟨rfl, -⟩ := Prod.mk.inj (Option.some.inj moves)
      have partakes := assembled.partakes thread
      unfold World.rouse
      split
      · rename_i x rest stack
        have stack : w.stack thread = .acquisition x :: rest := stack
        rw [stack] at partakes
        rw [partakes.1.2.1]
        exact ⟨.modifyLock w fun _ vacant => vacant.rouse thread, fun other => by simp [World.stack]⟩
      · rename_i rest stack
        have stack : w.stack thread = .parking .parked :: rest := stack
        rw [stack] at partakes
        exact partakes.1.elim
      · rename_i x rest stack
        have stack : w.stack thread = .sleeping x :: rest := stack
        rw [stack] at partakes
        exact partakes.1.elim
      · exact ⟨.refl w, fun _ => rfl⟩
  obtain ⟨makes, standing⟩ := lasts
  refine ⟨assembled.carry makes trivial coherent owned (·.move moves) ?_ ?_, makes, standing⟩
  · exact fun thread => standing thread ▸ assembled.partakes thread
  · exact fun thread busy => standing thread ▸ busy

end World.Assembled

end

end StopTheWorld
