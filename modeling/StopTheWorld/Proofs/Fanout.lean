import StopTheWorld.EventBus

namespace StopTheWorld

/-! What the receivers of a bus get of the events that are published on it. -/

namespace EventBus

variable {ε : Type}

/-- Something that users of a bus have done. -/
inductive Entry (ε : Type)
  | subscribed (key : Nat)
  | published (event : ε)
  | cloned (key : Nat)
  | dropped (key : Nat)
  /-- These events were taken off a subscription, through whichever of its receivers. -/
  | received (key : Nat) (events : List ε)

/-- The subscription that an entry is about. -/
def Entry.key? : Entry ε → Option Nat
  | subscribed key | cloned key | dropped key | received key _ => some key
  | published _ => none

/-- There is one receiver more of the subscription. -/
def Entry.adds (key : Nat) : Entry ε → Bool
  | subscribed k | cloned k => k = key
  | _ => false

def Entry.removes (key : Nat) : Entry ε → Bool
  | dropped k => k = key
  | _ => false

/-- The receivers of a subscription that users still have. -/
def receivers (key : Nat) (entries : List (Entry ε)) : Nat :=
  entries.countP (·.adds key) - entries.countP (·.removes key)

/-- Everything that was published, in order. -/
def publications (entries : List (Entry ε)) : List ε :=
  entries.flatMap fun
    | .published event => [event]
    | _ => []

/-- What was published since the subscription. -/
def publishedSince (key : Nat) : List (Entry ε) → List ε
  | [] => []
  | .subscribed k :: rest => if k = key then publications rest else publishedSince key rest
  | _ :: rest => publishedSince key rest

/-- What was taken off a subscription, in the order in which it was taken. -/
def receivedOf (key : Nat) (entries : List (Entry ε)) : List ε :=
  entries.flatMap fun
    | .received k events => if k = key then events else []
    | _ => []

/-- The subscription as the bus knows it. -/
def channel? (bus : EventBus ε) (key : Nat) : Option (Channel ε) :=
  bus.channels.find? (·.key = key)

/-- `Journal entries bus`: the bus has been used from the beginning as the entries say. Whoever clones or
drops a receiver, or takes events, has a receiver to do it with. -/
inductive Journal : List (Entry ε) → EventBus ε → Prop
  | nil : Journal [] {}
  | subscribe {entries : List (Entry ε)} {bus : EventBus ε} (journal : Journal entries bus) :
      Journal (entries ++ [.subscribed bus.subscribe.2]) bus.subscribe.1
  | publish {entries : List (Entry ε)} {bus : EventBus ε} (event : ε) (journal : Journal entries bus) :
      Journal (entries ++ [.published event]) (bus.publish event)
  | clone {entries : List (Entry ε)} {bus : EventBus ε} {key : Nat} (journal : Journal entries bus)
      (has : 0 < receivers key entries) : Journal (entries ++ [.cloned key]) (bus.cloneReceiver key)
  | drop {entries : List (Entry ε)} {bus : EventBus ε} {key : Nat} (journal : Journal entries bus)
      (has : 0 < receivers key entries) : Journal (entries ++ [.dropped key]) (bus.dropReceiver key)
  | take {entries : List (Entry ε)} {bus : EventBus ε} {key : Nat} (journal : Journal entries bus)
      (has : 0 < receivers key entries) :
      Journal (entries ++ [.received key (bus.take key).1.toList]) (bus.take key).2
  | drain {entries : List (Entry ε)} {bus : EventBus ε} {key : Nat} (journal : Journal entries bus)
      (has : 0 < receivers key entries) :
      Journal (entries ++ [.received key (bus.drain key).1]) (bus.drain key).2

/-- A subscription is served as the entries call for. -/
structure Serves (key : Nat) (entries : List (Entry ε)) (channel : Option (Channel ε)) : Prop where
  known : channel.isSome = true → .subscribed key ∈ entries
  balance : entries.countP (·.adds key) =
    entries.countP (·.removes key) + (channel.map (·.receivers)).getD 0
  begins : receivedOf key entries <+: publishedSince key entries
  gets : ∀ c, channel = some c → c.isLive = true →
    receivedOf key entries ++ c.queue = publishedSince key entries

/-- Every subscription has a key of its own, and is served. -/
structure Keeps (entries : List (Entry ε)) (bus : EventBus ε) : Prop where
  below : ∀ channel ∈ bus.channels, channel.key < bus.next
  distinct : bus.subscribers.Nodup
  ahead : ∀ entry ∈ entries, ∀ key, entry.key? = some key → key < bus.next
  serves : ∀ key, Serves key entries (bus.channel? key)

section

variable {bus : EventBus ε} {entries : List (Entry ε)} {entry : Entry ε} {key other : Nat}
  {channel : Channel ε} {event : ε}

theorem mem_subscribers_iff : key ∈ bus.subscribers ↔ (bus.channel? key).isSome = true := by
  simp [subscribers, channel?]

theorem queued_eq : bus.queued key = ((bus.channel? key).map (·.queue)).getD [] := by
  unfold queued channel?
  split
  · rename_i none
    rw [none]
    rfl
  · rename_i found
    rw [found]
    rfl

theorem channel?_onChannel {f : Channel ε → Channel ε} (keeps : ∀ channel, (f channel).key = channel.key) :
    (bus.onChannel key f).channel? other =
      if other = key then (bus.channel? key).map f else bus.channel? other := by
  unfold channel? onChannel
  rw [List.find?_map]
  have same : ((fun channel : Channel ε => decide (channel.key = other)) ∘ fun channel =>
      if channel.key = key then f channel else channel) = fun channel => decide (channel.key = other) := by
    funext channel
    by_cases here : channel.key = key <;> simp [here, keeps]
  simp only [same]
  split
  · rename_i here
    subst here
    refine Option.map_congr fun channel found => ?_
    have fits : channel.key = other := by simpa using List.find?_some found
    simp [fits]
  · rename_i there
    refine (Option.map_congr fun channel found => ?_).trans Option.map_id'
    have fits : channel.key = other := by simpa using List.find?_some found
    simp [fits, there]

theorem channel?_subscribe (below : ∀ channel ∈ bus.channels, channel.key < bus.next) :
    bus.subscribe.1.channel? key = if key = bus.next then some { key := key } else bus.channel? key := by
  unfold channel? subscribe
  rw [List.find?_append]
  split
  · rename_i new
    have none : bus.channels.find? (·.key = key) = none := by
      rw [List.find?_eq_none]
      intro channel mem
      simpa [new] using Nat.ne_of_lt (below channel mem)
    rw [none]
    simp [new]
  · rename_i old
    simp [Ne.symm old]

theorem channel?_publish (distinct : bus.subscribers.Nodup) :
    (bus.publish event).channel? key = ((bus.channel? key).filter (·.isLive)).map (·.push event) := by
  unfold channel? publish
  dsimp only
  unfold subscribers at distinct
  have pos {c : Channel ε} {rest : List (Channel ε)} (fits : c.key = key) :
      (c :: rest).find? (·.key = key) = some c := by simp [fits]
  have neg {c : Channel ε} {rest : List (Channel ε)} (differs : c.key ≠ key) :
      (c :: rest).find? (·.key = key) = rest.find? (·.key = key) := by simp [differs]
  generalize bus.channels = channels at distinct
  induction channels with
  | nil => rfl
  | cons channel channels ih =>
    rw [List.map_cons, List.nodup_cons] at distinct
    have ih := ih distinct.2
    by_cases here : channel.key = key
    · -- no other has the key, so that nothing is found if this one is not kept
      have none : channels.find? (·.key = key) = none := by
        rw [List.find?_eq_none]
        intro other mem same
        exact distinct.1 (List.mem_map.mpr ⟨other, mem, by simp_all⟩)
      rw [none] at ih
      rw [pos here]
      cases live : channel.isLive with
      | true =>
        rw [List.filter_cons_of_pos live, List.map_cons, Option.filter_some_pos live]
        exact pos here
      | false =>
        rw [List.filter_cons_of_neg (by simp [live]), ih, Option.filter_some_neg live]
        rfl
    · rw [neg here]
      cases live : channel.isLive with
      | true =>
        rw [List.filter_cons_of_pos live, List.map_cons]
        exact (neg (c := channel.push event) here).trans ih
      | false => rw [List.filter_cons_of_neg (by simp [live]), ih]

theorem publications_append (first second : List (Entry ε)) :
    publications (first ++ second) = publications first ++ publications second := by
  simp [publications]

theorem receivedOf_append (first second : List (Entry ε)) :
    receivedOf key (first ++ second) = receivedOf key first ++ receivedOf key second := by
  simp [receivedOf]

theorem publishedSince_append (known : .subscribed key ∈ entries) (more : List (Entry ε)) :
    publishedSince key (entries ++ more) = publishedSince key entries ++ publications more := by
  induction entries with
  | nil => simp at known
  | cons first entries ih =>
    cases first with
    | subscribed k =>
      simp only [List.cons_append, publishedSince]
      split
      · exact publications_append _ _
      · rename_i other
        have later : .subscribed key ∈ entries := by simpa [Ne.symm other] using known
        exact ih later
    | _ => exact ih (by simpa using known)

theorem publishedSince_of_notMem (unknown : .subscribed key ∉ entries) (more : List (Entry ε)) :
    publishedSince key (entries ++ more) = publishedSince key more := by
  induction entries with
  | nil => rfl
  | cons first entries ih =>
    obtain ⟨other, rest⟩ := not_or.mp (mt List.mem_cons.mpr unknown)
    cases first with
    | subscribed k =>
      have apart : k ≠ key := fun same => other (same ▸ rfl)
      simpa [publishedSince, apart] using ih rest
    | _ => exact ih rest

/-- All that a subscription is to get is the end of one and the same sequence. -/
theorem publishedSince_suffix (key : Nat) (entries : List (Entry ε)) :
    publishedSince key entries <:+ publications entries := by
  induction entries with
  | nil => exact List.suffix_rfl
  | cons first entries ih =>
    have tail : publications entries <:+ publications (first :: entries) :=
      ⟨_, (publications_append [first] entries).symm⟩
    cases first with
    | subscribed k =>
      simp only [publishedSince]
      split
      · exact tail
      · exact ih.trans tail
    | _ => exact ih.trans tail

theorem publishedSince_extends (more : List (Entry ε)) :
    publishedSince key entries <+: publishedSince key (entries ++ more) := by
  by_cases known : .subscribed key ∈ entries
  · rw [publishedSince_append known]
    exact List.prefix_append _ _
  · have none : publishedSince key entries = [] := by
      simpa [publishedSince] using publishedSince_of_notMem known []
    rw [none]
    exact List.nil_prefix

/-- Nothing is to be had from an entry that publishes nothing. -/
theorem publishedSince_silent (silent : publications [entry] = []) (old : entry ≠ .subscribed key) :
    publishedSince key (entries ++ [entry]) = publishedSince key entries := by
  by_cases known : .subscribed key ∈ entries
  · rw [publishedSince_append known, silent, List.append_nil]
  · have before : publishedSince key entries = [] := by
      simpa [publishedSince] using publishedSince_of_notMem known []
    rw [before, publishedSince_of_notMem known]
    cases entry with
    | subscribed k =>
      have apart : k ≠ key := fun same => old (same ▸ rfl)
      simp [publishedSince, apart]
    | _ => rfl

theorem receivedOf_singleton (other : entry.key? ≠ some key) : receivedOf key [entry] = [] := by
  cases entry <;> simp_all [receivedOf, Entry.key?]

namespace Serves

variable {state : Option (Channel ε)}

/-- Whoever has a receiver has one that the bus knows. -/
theorem live (serves : Serves key entries state) (has : 0 < receivers key entries) :
    ∃ c, state = some c ∧ c.isLive = true := by
  have balance := serves.balance
  unfold receivers at has
  cases state with
  | none =>
    simp only [Option.map_none, Option.getD_none] at balance
    omega
  | some c =>
    simp only [Option.map_some, Option.getD_some] at balance
    exact ⟨c, rfl, decide_eq_true (by omega)⟩

theorem balance_snoc {n : Nat} (serves : Serves key entries state)
    (changes : (state.map (·.receivers)).getD 0 + (if entry.adds key then 1 else 0) =
      (if entry.removes key then 1 else 0) + n) :
    (entries ++ [entry]).countP (·.adds key) = (entries ++ [entry]).countP (·.removes key) + n := by
  have balance := serves.balance
  simp only [List.countP_append, List.countP_singleton]
  omega

theorem receivers_eq (serves : Serves key entries state) :
    receivers key entries = (state.map (·.receivers)).getD 0 := by
  have balance := serves.balance
  unfold receivers
  omega

/-- What is done with one subscription is nothing to another. -/
theorem elsewhere (serves : Serves key entries state) (apart : entry.key? ≠ some key)
    (silent : publications [entry] = []) : Serves key (entries ++ [entry]) state := by
  have old : entry ≠ .subscribed key := fun same => apart (same ▸ rfl)
  have since : publishedSince key (entries ++ [entry]) = publishedSince key entries :=
    publishedSince_silent silent old
  have received : receivedOf key (entries ++ [entry]) = receivedOf key entries := by
    rw [receivedOf_append, receivedOf_singleton apart, List.append_nil]
  refine ⟨fun some => List.mem_append_left _ (serves.known some), ?_, ?_, ?_⟩
  · have adds : entry.adds key = false := by cases entry <;> simp_all [Entry.key?, Entry.adds]
    have removes : entry.removes key = false := by cases entry <;> simp_all [Entry.key?, Entry.removes]
    exact serves.balance_snoc (by simp [adds, removes])
  · rw [since, received]
    exact serves.begins
  · intro c found live
    rw [since, received]
    exact serves.gets c found live

theorem publish (serves : Serves key entries state) (event : ε) :
    Serves key (entries ++ [.published event])
      ((state.filter (·.isLive)).map (·.push event)) := by
  have received : receivedOf key (entries ++ [.published event]) = receivedOf key entries := by
    rw [receivedOf_append, receivedOf_singleton (by simp [Entry.key?]), List.append_nil]
  have begins : receivedOf key (entries ++ [.published event]) <+:
      publishedSince key (entries ++ [.published event]) :=
    received ▸ serves.begins.trans (publishedSince_extends _)
  cases state with
  | none =>
    exact ⟨by simp, serves.balance_snoc (by simp [Entry.adds, Entry.removes]), begins, by simp⟩
  | some c =>
    have known := List.mem_append_left [.published event] (serves.known rfl)
    by_cases live : c.isLive = true
    · rw [Option.filter_some_pos live]
      refine ⟨fun _ => known, serves.balance_snoc ?_, begins, ?_⟩
      · simp [Entry.adds, Entry.removes, Channel.push]
      · intro pushed found _
        obtain rfl := Option.some.inj found
        rw [received, publishedSince_append (serves.known rfl), ← serves.gets c rfl live]
        exact (List.append_assoc ..).symm
    · rw [Option.filter_some_neg (by simpa using live)]
      have none : c.receivers = 0 := by simpa [Channel.isLive] using live
      exact ⟨by simp, serves.balance_snoc (by simp [Entry.adds, Entry.removes, none]), begins, by simp⟩

theorem subscribe (ahead : ∀ entry ∈ entries, entry.key? ≠ some key) :
    Serves key (entries ++ [.subscribed key]) (some { key := key }) := by
  have unknown : .subscribed key ∉ entries := fun mem => ahead _ mem rfl
  have since : publishedSince key (entries ++ [.subscribed key]) = [] := by
    rw [publishedSince_of_notMem unknown]
    simp [publishedSince, publications]
  have received : receivedOf key (entries ++ [.subscribed key]) = [] := by
    rw [receivedOf_append]
    simp only [receivedOf, List.flatMap_eq_nil_iff, List.append_eq_nil_iff]
    refine ⟨fun entry mem => ?_, by simp⟩
    have apart := ahead entry mem
    cases entry <;> simp_all [Entry.key?]
  have adds : entries.countP (·.adds key) = 0 := List.countP_eq_zero.mpr fun entry mem => by
    have apart := ahead entry mem
    cases entry <;> simp_all [Entry.key?, Entry.adds]
  have removes : entries.countP (·.removes key) = 0 := List.countP_eq_zero.mpr fun entry mem => by
    have apart := ahead entry mem
    cases entry <;> simp_all [Entry.key?, Entry.removes]
  refine ⟨fun _ => by simp, ?_, by simpa only [since, received] using List.prefix_rfl, ?_⟩
  · rw [List.countP_append, List.countP_append, adds, removes]
    simp [Entry.adds, Entry.removes]
  · intro c found _
    obtain rfl := Option.some.inj found
    rw [since, received]
    rfl

theorem clone (serves : Serves key entries (some channel)) (live : channel.isLive = true) :
    Serves key (entries ++ [.cloned key])
      (some { channel with receivers := channel.receivers + 1 }) := by
  have since : publishedSince key (entries ++ [.cloned key]) = publishedSince key entries :=
    publishedSince_silent rfl (by simp)
  have received : receivedOf key (entries ++ [.cloned key]) = receivedOf key entries := by
    simp [receivedOf]
  refine ⟨fun _ => List.mem_append_left _ (serves.known rfl), serves.balance_snoc ?_, ?_, ?_⟩
  · simp [Entry.adds, Entry.removes]
  · rw [since, received]
    exact serves.begins
  · intro c found _
    obtain rfl := Option.some.inj found
    rw [since, received]
    exact serves.gets channel rfl live

theorem drop (serves : Serves key entries (some channel)) (live : channel.isLive = true) :
    Serves key (entries ++ [.dropped key])
      (some { channel with
        receivers := channel.receivers - 1
        queue := if channel.receivers ≤ 1 then [] else channel.queue }) := by
  have since : publishedSince key (entries ++ [.dropped key]) = publishedSince key entries :=
    publishedSince_silent rfl (by simp)
  have received : receivedOf key (entries ++ [.dropped key]) = receivedOf key entries := by
    simp [receivedOf]
  have some : 0 < channel.receivers := of_decide_eq_true live
  refine ⟨fun _ => List.mem_append_left _ (serves.known rfl), serves.balance_snoc ?_, ?_, ?_⟩
  · simp only [Entry.adds, Entry.removes, decide_true, Option.map_some, Option.getD_some]
    simp
    omega
  · rw [since, received]
    exact serves.begins
  · intro c found stays
    obtain rfl := Option.some.inj found
    have more : 0 < channel.receivers - 1 := of_decide_eq_true stays
    rw [since, received]
    simpa [Nat.not_le.mpr (Nat.lt_of_sub_pos more)] using serves.gets channel rfl live

/-- What is taken off the front of a queue has been received. -/
theorem receive {events rest : List ε} (serves : Serves key entries (some channel))
    (live : channel.isLive = true) (parts : channel.queue = events ++ rest) :
    Serves key (entries ++ [.received key events]) (some { channel with queue := rest }) := by
  have since : publishedSince key (entries ++ [.received key events]) = publishedSince key entries :=
    publishedSince_silent rfl (by simp)
  have received : receivedOf key (entries ++ [.received key events]) =
      receivedOf key entries ++ events := by
    simp [receivedOf]
  have gets : receivedOf key (entries ++ [.received key events]) ++ rest =
      publishedSince key (entries ++ [.received key events]) := by
    rw [since, received, List.append_assoc, ← parts]
    exact serves.gets channel rfl live
  refine ⟨fun _ => List.mem_append_left _ (serves.known rfl), serves.balance_snoc ?_, ⟨rest, gets⟩, ?_⟩
  · simp [Entry.adds, Entry.removes]
  · intro c found _
    obtain rfl := Option.some.inj found
    exact gets

end Serves

namespace Keeps

theorem nil : Keeps [] ({} : EventBus ε) where
  below := by simp
  distinct := List.nodup_nil
  ahead := by simp
  serves _ := ⟨by simp [channel?], rfl, List.nil_prefix, by simp [channel?]⟩

/-- The keys stay apart when a subscription is changed. -/
theorem use {f : Channel ε → Channel ε} (keeps : Keeps entries bus) (about : entry.key? = some key)
    (named : ∀ channel, (f channel).key = channel.key) (silent : publications [entry] = [])
    (has : 0 < receivers key entries)
    (serves : ∀ channel, bus.channel? key = some channel → channel.isLive = true →
      Serves key (entries ++ [entry]) (some (f channel))) :
    Keeps (entries ++ [entry]) (bus.onChannel key f) := by
  obtain ⟨channel, found, live⟩ := (keeps.serves key).live has
  refine ⟨fun channel mem => ?_, ?_, fun old mem k same => ?_, fun other => ?_⟩
  · obtain ⟨before, known, rfl⟩ := List.mem_map.mp mem
    have below := keeps.below before known
    split
    · rwa [named]
    · exact below
  · have same : (bus.onChannel key f).subscribers = bus.subscribers := by
      unfold subscribers onChannel
      rw [List.map_map]
      refine List.map_congr_left fun channel _ => ?_
      by_cases here : channel.key = key <;> simp [here, named]
    exact same ▸ keeps.distinct
  · obtain mem | mem := List.mem_append.mp mem
    · exact keeps.ahead old mem k same
    · obtain rfl : k = key := by
        rw [List.mem_singleton.mp mem, about] at same
        exact (Option.some.inj same).symm
      have fits : channel.key = k := by simpa using List.find?_some found
      exact fits ▸ keeps.below channel (List.mem_of_find?_eq_some found)
  · rw [channel?_onChannel named]
    split
    · rename_i here
      subst here
      rw [found]
      exact serves channel found live
    · rename_i there
      refine (keeps.serves other).elsewhere ?_ silent
      rw [about]
      exact fun same => there (Option.some.inj same).symm

theorem publish (keeps : Keeps entries bus) (event : ε) :
    Keeps (entries ++ [.published event]) (bus.publish event) := by
  refine ⟨fun channel mem => ?_, ?_, fun old mem k same => ?_, fun key => ?_⟩
  · obtain ⟨before, known, rfl⟩ := List.mem_map.mp mem
    exact keeps.below before (List.mem_filter.mp known).1
  · rw [subscribers_publish]
    exact keeps.distinct.sublist (List.filter_sublist.map _)
  · obtain mem | mem := List.mem_append.mp mem
    · exact keeps.ahead old mem k same
    · rw [List.mem_singleton.mp mem] at same
      simp [Entry.key?] at same
  · rw [channel?_publish keeps.distinct]
    exact (keeps.serves key).publish event

theorem subscribe (keeps : Keeps entries bus) :
    Keeps (entries ++ [.subscribed bus.subscribe.2]) bus.subscribe.1 := by
  refine ⟨fun channel mem => ?_, ?_, fun old mem k same => ?_, fun key => ?_⟩
  · obtain mem | mem := List.mem_append.mp mem
    · exact Nat.lt_succ_of_lt (keeps.below channel mem)
    · rw [List.mem_singleton.mp mem]
      exact Nat.lt_succ_self _
  · have added : bus.subscribe.1.subscribers = bus.subscribers ++ [bus.next] := by
      simp [subscribers, EventBus.subscribe]
    rw [added]
    refine List.nodup_append.mpr ⟨keeps.distinct, by simp, ?_⟩
    intro key mem other new
    obtain ⟨channel, known, rfl⟩ := List.mem_map.mp mem
    rw [List.mem_singleton.mp new]
    exact Nat.ne_of_lt (keeps.below channel known)
  · obtain mem | mem := List.mem_append.mp mem
    · exact Nat.lt_succ_of_lt (keeps.ahead old mem k same)
    · rw [List.mem_singleton.mp mem] at same
      obtain rfl : bus.next = k := Option.some.inj same
      exact Nat.lt_succ_self _
  · rw [channel?_subscribe keeps.below]
    split
    · rename_i new
      subst new
      exact .subscribe fun entry mem same => Nat.lt_irrefl _ (keeps.ahead entry mem _ same)
    · rename_i old
      exact (keeps.serves key).elsewhere (fun same => old (Option.some.inj same).symm) rfl

end Keeps

/-- However a bus is used, it keeps to its entries. -/
theorem Journal.keeps (journal : Journal entries bus) : Keeps entries bus := by
  induction journal with
  | nil => exact .nil
  | subscribe _ ih => exact ih.subscribe
  | publish event _ ih => exact ih.publish event
  | @clone entries bus key _ has ih =>
    exact ih.use rfl (fun _ => rfl) rfl has fun channel found live =>
      (found ▸ ih.serves key).clone live
  | @drop entries bus key _ has ih =>
    exact ih.use rfl (fun _ => rfl) rfl has fun channel found live =>
      (found ▸ ih.serves key).drop live
  | @take entries bus key _ has ih =>
    refine ih.use rfl (fun _ => rfl) rfl has fun channel found live => ?_
    have queue : bus.queued key = channel.queue := by rw [queued_eq, found]; rfl
    refine (found ▸ ih.serves key).receive live ?_
    cases parts : channel.queue <;> simp [EventBus.take, queue, parts]
  | @drain entries bus key _ has ih =>
    refine ih.use rfl (fun _ => rfl) rfl has fun channel found live => ?_
    have queue : bus.queued key = channel.queue := by rw [queued_eq, found]; rfl
    refine (found ▸ ih.serves key).receive live ?_
    simp [EventBus.drain, queue]

/-- A bus loses nothing and keeps the order. As long as a subscription has a receiver, what was taken off
it and what waits for it are together what was published since the subscription; without one, what was
taken is the beginning of that. All subscriptions get ends of one and the same sequence, so that any two of
them agree on its order. An event finds its way to the subscriptions that have a receiver, and the bus
forgets the others. Using one subscription leaves the others as they are. -/
theorem lossless_fanout (journal : Journal entries bus) :
    (∀ key, 0 < receivers key entries →
      receivedOf key entries ++ bus.queued key = publishedSince key entries) ∧
    (∀ key, receivedOf key entries <+: publishedSince key entries) ∧
    (∀ key, publishedSince key entries <:+ publications entries) ∧
    (∀ key other, publishedSince key entries <:+ publishedSince other entries ∨
      publishedSince other entries <:+ publishedSince key entries) ∧
    (∀ event key, key ∈ (bus.publish event).subscribers ↔ 0 < receivers key entries) ∧
    ∀ key other, other ≠ key →
      (bus.cloneReceiver key).channel? other = bus.channel? other ∧
      (bus.dropReceiver key).channel? other = bus.channel? other ∧
      (bus.take key).2.channel? other = bus.channel? other ∧
      (bus.drain key).2.channel? other = bus.channel? other := by
  have keeps := journal.keeps
  refine ⟨fun key has => ?_, fun key => (keeps.serves key).begins, (publishedSince_suffix · entries), ?_, ?_,
    ?_⟩
  · obtain ⟨channel, found, live⟩ := (keeps.serves key).live has
    rw [queued_eq, found]
    exact (keeps.serves key).gets channel found live
  · intro key other
    exact List.suffix_or_suffix_of_suffix (publishedSince_suffix key entries)
      (publishedSince_suffix other entries)
  · intro event key
    rw [mem_subscribers_iff, channel?_publish keeps.distinct, (keeps.serves key).receivers_eq]
    cases found : bus.channel? key with
    | none => simp
    | some channel =>
      cases live : channel.isLive <;> simp_all [Channel.isLive]
  · intro key other apart
    simp [cloneReceiver, dropReceiver, EventBus.take, EventBus.drain, channel?_onChannel, apart]

/-- Of two subscriptions the first one has two receivers, of which one takes an event and is dropped; the
second one, which comes later, loses its only receiver. -/
theorem lossless_fanout_sharedReceiver : ∃ (entries : List (Entry String)) (bus : EventBus String),
    Journal entries bus ∧ 0 < receivers 0 entries ∧ receivedOf 0 entries = ["a"] ∧
    receivedOf 0 entries ++ bus.queued 0 = ["a", "b", "c"] ∧ publishedSince 1 entries = ["b", "c"] ∧
    receivedOf 1 entries <+: ["b", "c"] ∧ 1 ∉ (bus.publish "d").subscribers := by
  have shared := @Journal.clone _ _ _ 0 (Journal.nil (ε := String) |>.subscribe.publish "a") (by decide)
  have joined := @Journal.take _ _ _ 0 (shared.subscribe.publish "b") (by decide)
  have lost := (@Journal.drop _ _ _ 0 joined (by decide)).publish "c"
  have journal := @Journal.drop _ _ _ 1 (@Journal.drain _ _ _ 1 lost (by decide)) (by decide)
  obtain ⟨gets, begins, -, -, kept, -⟩ := lossless_fanout journal
  refine ⟨_, _, journal, by decide, rfl, gets 0 (by decide), rfl, begins 1, ?_⟩
  rw [kept]
  decide

end

end EventBus

end StopTheWorld
