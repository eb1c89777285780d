import StopTheWorld.Proofs.PauseEvents

namespace StopTheWorld

/-! What the subscribers of a manager receive. -/

/-- The bus of a manager, and who has subscribed. -/
def World.feed (m : ManagerId) (w : World) : EventBus Event × List Subscription :=
  ((w.manager m).bus, w.subscriptions)

/-- What a step makes of a feed. -/
inductive Effect.Feeds (m : ManagerId) (w : World) (effect : Effect) : Prop
  | keeps (same : effect.world.feed m = w.feed m)
      (quiet : effect.notes.filterMap (Note.event? m) = [])
  | publishes {event : Event}
      (feed : effect.world.feed m = ((w.manager m).bus.publish event, w.subscriptions))
      (told : effect.notes.filterMap (Note.event? m) = [event])
  | joins {n : ManagerId} {name : String} (world : effect.world = w.subscribe n name)
      (quiet : effect.notes = [])
  | parts {name : String} (world : effect.world = w.unsubscribe name) (quiet : effect.notes = [])

/-- Every subscription has a receiver, and a key of its own. -/
structure World.IsTuned (w : World) : Prop where
  below : ∀ m, ∀ channel ∈ (w.manager m).bus.channels, channel.key < (w.manager m).bus.next
  distinct : ∀ s ∈ w.subscriptions, ∀ t ∈ w.subscriptions, s.manager = t.manager →
    s.key = t.key → s = t
  live : ∀ s ∈ w.subscriptions, ∃ channel,
    (w.manager s.manager).bus.channels.find? (·.key = s.key) = some channel ∧ channel.isLive = true

/-- The events that a subscription has received and not yet taken. -/
def World.received (w : World) (s : Subscription) : List Event :=
  (w.manager s.manager).bus.queued s.key

section

variable {m : ManagerId} {self thread : ThreadId} {w v : World} {frame : Frame} {rest : List Frame}
  {effect : Effect} {notes : List Note} {moments : List Moment} {s : Subscription}

namespace World

theorem feed_modifyManager (n : ManagerId) {f : Manager → Manager}
    (keeps : ∀ manager, (f manager).bus = manager.bus) :
    (w.modifyManager n f).feed m = w.feed m := by
  unfold feed
  rw [manager_modifyManager]
  split
  · rename_i same
    rw [keeps, same]
    rfl
  · rfl

@[simp] theorem feed_modifyLock (lock : LockRef) (f : OwnedLock → OwnedLock) :
    (w.modifyLock lock f).feed m = w.feed m := by
  cases lock with
  | global | loose => rfl
  | pause n => exact feed_modifyManager n fun _ => rfl

@[simp] theorem feed_modifyRegistry (registry : RegistryRef) (f : Registry → Registry) :
    (w.modifyRegistry registry f).feed m = w.feed m := by
  cases registry with
  | loose => rfl
  | manager n => exact feed_modifyManager n fun _ => rfl

@[simp] theorem feed_setPhaser (phaser : PhaserRef) (value : Phaser) :
    (w.setPhaser phaser value).feed m = w.feed m := by
  cases phaser with
  | loose => rfl
  | registry registry => exact feed_modifyRegistry registry _

theorem feed_checkInterrupt (thread : ThreadId) :
    (w.checkInterrupt thread).1.feed m = w.feed m := by
  unfold checkInterrupt
  split <;> rfl

theorem feed_leaveGlobal {lock : GlobalId} {owner : ThreadId}
    (leaves : w.leaveGlobal lock owner = some (v, notes)) : v.feed m = w.feed m := by
  simp only [leaveGlobal] at leaves
  split at leaves
  · obtain ⟨rfl, -⟩ := Prod.mk.inj (Option.some.inj leaves)
    exact feed_modifyLock _ _
  · simp at leaves

theorem feed_depart {phaser : PhaserRef} {phase : Nat}
    (departs : w.depart phaser = .ok (v, phase, notes)) : v.feed m = w.feed m := by
  unfold depart at departs
  dsimp only at departs
  split at departs
  · simp at departs
  · simp only [Except.ok.injEq, Prod.mk.injEq] at departs
    obtain ⟨rfl, -, -⟩ := departs
    exact feed_setPhaser _ _

end World

/-- Publishing an event is feeding it to the subscribers. -/
theorem Effect.Feeds.publish {n : ManagerId} {event : Event} {control : Control}
    (before : List Note) (silent : before.filterMap (Note.event? m) = []) :
    Effect.Feeds m w ⟨w.publish n event, control, before ++ [.published n event]⟩ := by
  by_cases same : n = m
  · subst same
    have feed : (w.publish n event).feed n = ((w.manager n).bus.publish event, w.subscriptions) := by
      simp [World.feed, World.publish, World.manager_modifyManager]
      rfl
    exact .publishes feed (by simp [silent, Note.event?])
  · refine .keeps ?_ (by simp [silent, Note.event?, same])
    simp [World.feed, World.publish, World.manager_modifyManager, Ne.symm same]
    rfl

theorem Access.feeds {access : Access} (step : access.advance self w = some effect) :
    effect.Feeds m w := by
  cases access with
  | globalLeave lock owner =>
    obtain ⟨v, notes, leaves, rfl⟩ := World.leaves_of_bind step
    exact .keeps (World.feed_leaveGlobal leaves) (World.silent_leaveGlobal leaves)
  | phaserDepart phaser =>
    simp only [advance] at step
    split at step <;> obtain rfl := Option.some.inj step
    · exact .keeps rfl rfl
    · exact .keeps (World.feed_depart ‹_›) (World.silent_depart ‹_›)
  | subscribe n name =>
    obtain rfl := Option.some.inj step
    exact .joins rfl rfl
  | unsubscribe name =>
    obtain rfl := Option.some.inj step
    exact .parts rfl rfl
  | check other =>
    obtain rfl := Option.some.inj step
    exact .keeps (World.feed_checkInterrupt _) rfl
  | phaserRegister phaser =>
    obtain rfl := Option.some.inj step
    exact .keeps (World.feed_setPhaser _ _) rfl
  | globalTryEnter | unblock =>
    simp only [advance] at step
    repeat' split at step
    all_goals first
      | (obtain rfl := Option.some.inj step
         exact .keeps rfl rfl)
      | simp at step
  | _ =>
    obtain rfl := Option.some.inj step
    exact .keeps rfl rfl

theorem Op.feeds {op : Op} (step : op.advance self w = some effect) : effect.Feeds m w := by
  cases op with
  | access a => exact Access.feeds step
  | release n =>
    obtain ⟨v, notes, leaves, rfl⟩ := World.leaves_of_bind step
    exact .keeps (World.feed_leaveGlobal leaves) (World.silent_leaveGlobal leaves)
  | deferLookup | unlock =>
    simp only [advance] at step
    split at step <;> obtain rfl := Option.some.inj step <;> exact .keeps rfl rfl
  | _ =>
    obtain rfl := Option.some.inj step
    exact .keeps rfl rfl

theorem Frame.feeds (step : frame.advance self w = some effect) : effect.Feeds m w := by
  have checking {thread : ThreadId} {reply : Reply} {u : World}
      (checks : w.checkInterrupt thread = (u, reply)) : u.feed m = w.feed m := by
    have kept : (w.checkInterrupt thread).1.feed m = w.feed m := World.feed_checkInterrupt thread
    rwa [checks] at kept
  cases frame with
  | start op => exact Op.feeds step
  | keepGuard =>
    obtain rfl := Option.some.inj step
    exact .keeps rfl rfl
  | withdrawal x =>
    simp only [advance, Withdrawal.advance] at step
    repeat' split at step
    all_goals first
      | obtain rfl := Option.some.inj step
      | simp at step
    all_goals first
      | exact .keeps (World.feed_depart ‹_›) (World.silent_depart ‹_›)
      | exact .keeps (by simp) rfl
  | entering e =>
    cases point : e.point <;> simp only [advance, Entering.advance, point] at step
    case announce =>
      split at step <;> obtain rfl := Option.some.inj step
      · exact .publish [_] rfl
      · exact .keeps rfl rfl
    all_goals
      repeat' split at step
      all_goals
        obtain rfl := Option.some.inj step
        exact .keeps rfl rfl
  | leaving l =>
    cases point : l.point <;> simp only [advance, Leaving.advance, point] at step
    case announce =>
      split at step <;> obtain rfl := Option.some.inj step
      · exact .publish [_] rfl
      · exact .keeps rfl rfl
    all_goals
      repeat' split at step
      all_goals
        obtain rfl := Option.some.inj step
        exact .keeps rfl rfl
  | pausing p =>
    cases point : p.point <;> simp only [advance, Pausing.advance, point] at step
    case announceStart =>
      obtain rfl := Option.some.inj step
      exact .publish [] rfl
    case announceEnd =>
      obtain rfl := Option.some.inj step
      exact .publish [_] rfl
    case leaveGlobal =>
      split at step
      · obtain ⟨v, notes, leaves, rfl⟩ := World.leaves_of_bind step
        exact .keeps (World.feed_leaveGlobal leaves) (World.silent_leaveGlobal leaves)
      · obtain rfl := Option.some.inj step
        exact .keeps rfl rfl
    case store | clear | invalidate | account =>
      obtain rfl := Option.some.inj step
      refine .keeps (World.feed_modifyManager _ fun _ => rfl) ?_
      first | rfl | (split <;> rfl)
    all_goals
      repeat' split at step
      all_goals
        obtain rfl := Option.some.inj step
        exact .keeps rfl rfl
  | _ =>
    simp only [advance, Acquisition.advance, Acquisition.took, Acquisition.gaveUp, Release.advance,
      OwnedLock.advanceNotify, Arrival.advance, Sleeping.advance, Parking.advance,
      Interruption.advance, Enrolment.advance, Visit.advance, Script.advance, Sequence.advance,
      Drain.advance, Phases.advance, Resuming.advance, Polling.advance, Foreign.advance,
      Acquiring.advance, Blocking.advance, Trial.advance] at step
    repeat' split at step
    all_goals first
      | (obtain rfl := Option.some.inj step
         refine .keeps ?_ ?_
         · first
             | rfl
             | (simp only [World.feed_modifyLock, World.feed_modifyRegistry, World.feed_setPhaser]
                done)
             | exact checking ‹_›
             | exact checking (Prod.eta _).symm
             | exact World.feed_modifyManager _ fun _ => rfl
             | exact World.feed_modifyLock _ _
         · rfl)
      | (obtain ⟨v, notes, leaves, rfl⟩ := World.leaves_of_bind step
         exact .keeps (World.feed_leaveGlobal leaves) (World.silent_leaveGlobal leaves))
      | simp at step

theorem World.feed_other {move : Move} (moves : w.move move = some (v, notes))
    (other : ∀ thread, move ≠ .run thread) : v.feed m = w.feed m := by
  cases move with
  | run thread => exact absurd rfl (other thread)
  | submit thread op =>
    obtain ⟨u, submit, same⟩ := Option.map_eq_some_iff.mp moves
    obtain ⟨rfl, rfl⟩ := Prod.mk.inj same
    unfold World.submit at submit
    split at submit
    · obtain rfl := Option.some.inj submit
      rfl
    · simp at submit
  | elapse span =>
    obtain ⟨rfl, rfl⟩ := Prod.mk.inj (Option.some.inj moves)
    rfl
  | rouse thread =>
    obtain ⟨rfl, rfl⟩ := Prod.mk.inj (Option.some.inj moves)
    unfold World.rouse
    split
    · exact World.feed_modifyLock _ _
    · rfl
    · split <;> rfl
    · rfl

namespace EventBus

variable {ε : Type} {bus : EventBus ε} {key : Nat} {channel : Channel ε}

theorem find?_publish (event : ε) (found : bus.channels.find? (·.key = key) = some channel)
    (live : channel.isLive = true) :
    (bus.publish event).channels.find? (·.key = key) = some (channel.push event) := by
  obtain ⟨fits, before, after, parts, none⟩ := List.find?_eq_some_iff_append.mp found
  rw [List.find?_eq_some_iff_append]
  refine ⟨fits, (before.filter (·.isLive)).map (·.push event),
    (after.filter (·.isLive)).map (·.push event), ?_, ?_⟩
  · simp [publish, parts, live]
  · simp only [List.mem_map, List.mem_filter]
    rintro _ ⟨other, ⟨mem, -⟩, rfl⟩
    exact none other mem

theorem find?_dropReceiver {dropped : Nat} (other : dropped ≠ key)
    (found : bus.channels.find? (·.key = key) = some channel) :
    (bus.dropReceiver dropped).channels.find? (·.key = key) = some channel := by
  obtain ⟨fits, before, after, parts, none⟩ := List.find?_eq_some_iff_append.mp found
  have apart : channel.key ≠ dropped := by
    rintro rfl
    exact other (by simpa using fits)
  rw [List.find?_eq_some_iff_append]
  simp only [dropReceiver, onChannel, parts, List.map_append, List.map_cons, if_neg apart]
  refine ⟨fits, _, _, rfl, ?_⟩
  simp only [List.mem_map]
  rintro _ ⟨another, mem, rfl⟩
  have none := none another mem
  split <;> exact none

theorem find?_subscribe (found : bus.channels.find? (·.key = key) = some channel) :
    bus.subscribe.1.channels.find? (·.key = key) = some channel := by
  simp [subscribe, List.find?_append, found]

theorem find?_subscribe_next (below : ∀ channel ∈ bus.channels, channel.key < bus.next) :
    bus.subscribe.1.channels.find? (·.key = bus.next) = some { key := bus.next } := by
  have none : bus.channels.find? (·.key = bus.next) = none := by
    rw [List.find?_eq_none]
    intro channel mem
    simpa using Nat.ne_of_lt (below channel mem)
  simp [subscribe, List.find?_append, none]

theorem queued_of_find? (found : bus.channels.find? (·.key = key) = some channel) :
    bus.queued key = channel.queue := by
  simp [queued, found]

end EventBus

namespace World

theorem bus_modifyManager (n : ManagerId) (f : Manager → Manager) :
    ((w.modifyManager n f).manager m).bus =
      if m = n then (f (w.manager n)).bus else (w.manager m).bus := by
  rw [manager_modifyManager]
  split <;> rfl

/-- Who unsubscribes does not make a key available again. -/
theorem next_unsubscribe (name : String) :
    ((w.unsubscribe name).manager m).bus.next = (w.manager m).bus.next := by
  unfold unsubscribe
  split
  · rfl
  · rename_i gone _
    refine (congrArg EventBus.next (bus_modifyManager (w := w) gone.manager _)).trans ?_
    split
    · rename_i same
      rw [same]
      rfl
    · rfl

end World

namespace World.IsTuned

/-- What is published is received. -/
theorem fed (tuned : w.IsTuned) (events : ManagerId → List Event)
    (feeds : ∀ m, v.feed m = w.feed m ∧ events m = [] ∨ ∃ event,
      v.feed m = ((w.manager m).bus.publish event, w.subscriptions) ∧ events m = [event]) :
    v.IsTuned ∧ ∀ s ∈ w.subscriptions, v.received s = w.received s ++ events s.manager := by
  have subscriptions : v.subscriptions = w.subscriptions := by
    obtain ⟨same, -⟩ | ⟨event, same, -⟩ := feeds 0 <;> exact congrArg Prod.snd same
  have bus (m : ManagerId) : (v.manager m).bus = (w.manager m).bus ∧ events m = [] ∨
      ∃ event, (v.manager m).bus = (w.manager m).bus.publish event ∧ events m = [event] :=
    (feeds m).imp (And.imp_left (congrArg Prod.fst)) fun ⟨event, same, told⟩ =>
      ⟨event, congrArg Prod.fst same, told⟩
  have found (s : Subscription) (mem : s ∈ w.subscriptions) : ∃ channel,
      (v.manager s.manager).bus.channels.find? (·.key = s.key) = some channel ∧
        channel.isLive = true ∧ channel.queue = w.received s ++ events s.manager := by
    obtain ⟨channel, found, live⟩ := tuned.live s mem
    unfold World.received
    rw [EventBus.queued_of_find? found]
    obtain ⟨same, silent⟩ | ⟨event, same, told⟩ := bus s.manager
    · exact ⟨channel, same ▸ found, live, by rw [silent, List.append_nil]⟩
    · refine ⟨channel.push event, same ▸ EventBus.find?_publish event found live, live, ?_⟩
      rw [told]
      rfl
  refine ⟨⟨fun m channel mem => ?_, subscriptions ▸ tuned.distinct, fun s mem => ?_⟩,
    fun s mem => ?_⟩
  · obtain ⟨same, -⟩ | ⟨event, same, -⟩ := bus m <;> rw [same] at mem ⊢
    · exact tuned.below m channel mem
    · obtain ⟨before, kept, rfl⟩ := List.mem_map.mp mem
      exact tuned.below m before (List.mem_of_mem_filter kept)
  · obtain ⟨channel, found, live, -⟩ := found s (subscriptions ▸ mem)
    exact ⟨channel, found, live⟩
  · obtain ⟨channel, found, -, queue⟩ := found s mem
    exact (EventBus.queued_of_find? found).trans queue

theorem parts (tuned : w.IsTuned) (name : String) :
    (w.unsubscribe name).IsTuned ∧
      ∀ s ∈ (w.unsubscribe name).subscriptions, s ∈ w.subscriptions ∧
        (w.unsubscribe name).received s = w.received s := by
  unfold World.unsubscribe
  split
  · exact ⟨tuned, fun s mem => ⟨mem, rfl⟩⟩
  · rename_i gone found
    have named : gone.name = name := by simpa using List.find?_some found
    have there : gone ∈ w.subscriptions := List.mem_of_find?_eq_some found
    -- Those that stay have another key than the one that goes.
    have apart {s : Subscription} (mem : s ∈ w.subscriptions) (stays : s.name ≠ name)
        (same : s.manager = gone.manager) : gone.key ≠ s.key := by
      intro key
      exact stays (tuned.distinct s mem gone there same key.symm ▸ named)
    have kept {s : Subscription} (mem : s ∈ w.subscriptions) (stays : s.name ≠ name) :
        ∃ channel, (w.manager s.manager).bus.channels.find? (·.key = s.key) = some channel ∧
          channel.isLive = true ∧
          ((w.modifyManager gone.manager fun m =>
            { m with bus := m.bus.dropReceiver gone.key }).manager s.manager).bus.channels.find?
              (·.key = s.key) = some channel := by
      obtain ⟨channel, found, live⟩ := tuned.live s mem
      refine ⟨channel, found, live, ?_⟩
      rw [World.bus_modifyManager]
      split
      · rename_i same
        exact EventBus.find?_dropReceiver (apart mem stays same) (same ▸ found)
      · exact found
    refine ⟨⟨fun m channel mem => ?_, fun s mem t mem' =>
      tuned.distinct s (List.mem_of_mem_filter mem) t (List.mem_of_mem_filter mem'), fun s mem => ?_⟩, fun s mem => ?_⟩
    · change channel ∈ ((w.modifyManager gone.manager fun m =>
          { m with bus := m.bus.dropReceiver gone.key }).manager m).bus.channels at mem
      change channel.key < ((w.modifyManager gone.manager fun m =>
          { m with bus := m.bus.dropReceiver gone.key }).manager m).bus.next
      rw [World.bus_modifyManager] at mem ⊢
      split at mem
      · rename_i same
        rw [if_pos same]
        obtain ⟨before, known, rfl⟩ := List.mem_map.mp mem
        have key := tuned.below _ before known
        split <;> exact key
      · rename_i other
        rw [if_neg other]
        exact tuned.below m channel mem
    · obtain ⟨mem, stays⟩ := List.mem_filter.mp mem
      obtain ⟨channel, -, live, found⟩ := kept mem (by simpa using stays)
      exact ⟨channel, found, live⟩
    · obtain ⟨mem, stays⟩ := List.mem_filter.mp mem
      obtain ⟨channel, before, -, found⟩ := kept mem (by simpa using stays)
      refine ⟨mem, ?_⟩
      unfold World.received
      rw [EventBus.queued_of_find? before]
      exact EventBus.queued_of_find? found

theorem joins (tuned : w.IsTuned) (n : ManagerId) (name : String) :
    (w.subscribe n name).IsTuned ∧
      ∀ s ∈ w.subscriptions, s ∈ (w.subscribe n name).subscriptions →
        (w.subscribe n name).received s = w.received s := by
  obtain ⟨left, rest⟩ := tuned.parts name
  generalize joined : w.unsubscribe name = u at left rest
  have bus (m : ManagerId) : ((w.subscribe n name).manager m).bus =
      if m = n then (u.manager n).bus.subscribe.1 else (u.manager m).bus := by
    rw [← joined]
    exact World.bus_modifyManager (w := w.unsubscribe name) n _
  have subscriptions : (w.subscribe n name).subscriptions =
      u.subscriptions ++ [{ name := name, manager := n, key := (u.manager n).bus.next }] := by
    rw [← joined]
    rfl
  -- Whoever was subscribed before has a smaller key than the one that joins.
  have older {s : Subscription} (mem : s ∈ u.subscriptions) (manager : s.manager = n) :
      s.key < (u.manager n).bus.next := by
    obtain ⟨channel, found, -⟩ := left.live s mem
    rw [manager] at found
    have key : channel.key = s.key := by simpa using List.find?_some found
    exact key ▸ left.below n channel (List.mem_of_find?_eq_some found)
  have kept {s : Subscription} {channel : Channel Event}
      (found : (u.manager s.manager).bus.channels.find? (·.key = s.key) = some channel) :
      ((w.subscribe n name).manager s.manager).bus.channels.find? (·.key = s.key) =
        some channel := by
    rw [bus]
    split
    · rename_i same
      exact EventBus.find?_subscribe (same ▸ found)
    · exact found
  refine ⟨⟨fun m channel mem => ?_, fun s mem t mem' => ?_, fun s mem => ?_⟩, fun s mem stays => ?_⟩
  · rw [bus] at mem ⊢
    split at mem
    · rename_i same
      rw [if_pos same]
      obtain known | new := List.mem_append.mp mem
      · exact Nat.lt_succ_of_lt (left.below n channel known)
      · rw [List.mem_singleton.mp new]
        exact Nat.lt_succ_self _
    · rename_i other
      rw [if_neg other]
      exact left.below m channel mem
  · rw [subscriptions, List.mem_append, List.mem_singleton] at mem mem'
    intro manager key
    obtain mem | rfl := mem <;> obtain mem' | rfl := mem'
    · exact left.distinct s mem t mem' manager key
    · exact absurd key (Nat.ne_of_lt (older mem manager))
    · exact absurd key.symm (Nat.ne_of_lt (older mem' manager.symm))
    · rfl
  · rw [subscriptions, List.mem_append, List.mem_singleton] at mem
    obtain mem | rfl := mem
    · obtain ⟨channel, found, live⟩ := left.live s mem
      exact ⟨channel, kept found, live⟩
    · refine ⟨{ key := (u.manager n).bus.next }, ?_, rfl⟩
      rw [bus, if_pos rfl]
      exact EventBus.find?_subscribe_next (left.below n)
  · have before : s ∈ u.subscriptions := by
      rw [subscriptions, List.mem_append, List.mem_singleton] at stays
      obtain stays | rfl := stays
      · exact stays
      · obtain ⟨channel, found, -⟩ := tuned.live _ mem
        have key : channel.key = (u.manager n).bus.next := by simpa using List.find?_some found
        have known := tuned.below n channel (List.mem_of_find?_eq_some found)
        have next : (u.manager n).bus.next = (w.manager n).bus.next :=
          joined ▸ World.next_unsubscribe name
        omega
    obtain ⟨channel, found, -⟩ := left.live s before
    rw [← (rest s before).2]
    unfold World.received
    rw [EventBus.queued_of_find? (kept found), EventBus.queued_of_find? found]

/-- A subscription that is there before and after a step has received what the step published. -/
theorem step (tuned : w.IsTuned) (step : w.step self = some (v, notes)) :
    v.IsTuned ∧ ∀ s ∈ w.subscriptions, s ∈ v.subscriptions →
      v.received s = w.received s ++ notes.filterMap (Note.event? s.manager) := by
  obtain ⟨frame, rest, effect, stack, advance, rfl, rfl⟩ := World.step_eq_some step
  have feeds (m : ManagerId) : effect.Feeds m w := Frame.feeds advance
  suffices effect.world.IsTuned ∧ ∀ s ∈ w.subscriptions, s ∈ effect.world.subscriptions →
      effect.world.received s = w.received s ++ effect.notes.filterMap (Note.event? s.manager) by
    refine ⟨(this.1.fed (v := effect.world.setStack self _) (fun _ => []) fun _ =>
      .inl ⟨rfl, rfl⟩).1, fun s mem stays => ?_⟩
    rw [List.filterMap_append, Control.silent_completion, List.append_nil]
    exact this.2 s mem stays
  by_cases joined : ∃ n name, effect.world = w.subscribe n name ∧ effect.notes = []
  · obtain ⟨n, name, world, quiet⟩ := joined
    obtain ⟨tuned, same⟩ := tuned.joins n name
    rw [world, quiet]
    exact ⟨tuned, fun s mem stays => by simpa using same s mem stays⟩
  by_cases parted : ∃ name, effect.world = w.unsubscribe name ∧ effect.notes = []
  · obtain ⟨name, world, quiet⟩ := parted
    obtain ⟨tuned, same⟩ := tuned.parts name
    rw [world, quiet]
    exact ⟨tuned, fun s _ stays => by simpa using (same s stays).2⟩
  · obtain ⟨tuned, received⟩ := tuned.fed (v := effect.world)
      (fun m => effect.notes.filterMap (Note.event? m)) fun m => by
        cases feeds m with
        | keeps same quiet => exact .inl ⟨same, quiet⟩
        | publishes feed told => exact .inr ⟨_, feed, told⟩
        | joins world quiet => exact absurd ⟨_, _, world, quiet⟩ joined
        | parts world quiet => exact absurd ⟨_, world, quiet⟩ parted
    exact ⟨tuned, fun s mem _ => received s mem⟩

theorem move {move : Move} (tuned : w.IsTuned) (moves : w.move move = some (v, notes)) :
    v.IsTuned ∧ ∀ s ∈ w.subscriptions, s ∈ v.subscriptions →
      v.received s = w.received s ++ eventsOf s.manager [⟨w, move, notes⟩] := by
  by_cases runs : ∃ self, move = .run self
  · obtain ⟨self, rfl⟩ := runs
    simpa only [eventsOf_run] using tuned.step moves
  · have other (self : ThreadId) : move ≠ .run self := fun same => runs ⟨self, same⟩
    obtain ⟨tuned, received⟩ := tuned.fed (v := v) (fun _ => []) fun m =>
      .inl ⟨World.feed_other moves other, rfl⟩
    exact ⟨tuned, fun s mem _ => by rw [eventsOf_idle other]; exact received s mem⟩

end World.IsTuned

theorem Course.isTuned {custom : World → ThreadId → Prop} (course : Course custom w moments v)
    (tuned : w.IsTuned) : v.IsTuned :=
  course.keeps (fun tuned _ moves => (tuned.move moves).1) tuned

/-- A subscription receives what is published while it is there, in that order, and nothing else. -/
theorem Course.received {custom : World → ThreadId → Prop} (course : Course custom w moments v)
    (tuned : w.IsTuned) (there : ∀ moment ∈ moments, s ∈ moment.world.subscriptions)
    (stays : s ∈ v.subscriptions) : v.received s = w.received s ++ eventsOf s.manager moments := by
  induction course with
  | nil => simp [eventsOf]
  | @snoc moments x y move notes before _ moves ih =>
    rw [List.forall_mem_append] at there
    have now : s ∈ x.subscriptions := there.2 _ List.mem_cons_self
    rw [((before.isTuned tuned).move moves).2 s now stays, ih there.1 now, eventsOf_append,
      List.append_assoc]

end

end StopTheWorld
