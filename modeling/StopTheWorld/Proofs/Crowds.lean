import StopTheWorld.Proofs.Rounds

namespace StopTheWorld

/-! A phaser in the hands of anybody. Threads register, arrive and depart as they like, whether they are
parties or not, and more of them may arrive than there are parties. -/

def Note.isRegistration (ref : PhaserRef) : Note → Bool
  | registered phaser => phaser = ref
  | _ => false

def Note.isDeparture (ref : PhaserRef) : Note → Bool
  | departed phaser => phaser = ref
  | _ => false

/-- How often a party has been added. -/
def registrations (ref : PhaserRef) (entries : List (ThreadId × Note)) : Nat :=
  entries.countP (·.2.isRegistration ref)

/-- How often a party has been taken away. -/
def departures (ref : PhaserRef) (entries : List (ThreadId × Note)) : Nat :=
  entries.countP (·.2.isDeparture ref)

/-- How many calls have arrived at a phase, whosever they are. -/
def turnout (ref : PhaserRef) (phase : Nat) (entries : List (ThreadId × Note)) : Nat :=
  entries.countP (·.2.isArrival ref phase)

/-- Those that wait for the phase in progress are as many as the phaser counts. -/
def World.Awaits (w : World) (ref : PhaserRef) (callers : List ThreadId) : Prop :=
  callers.Nodup ∧ callers.length = (w.phaser ref).arrived ∧
    ∀ thread, thread ∈ callers ↔ w.isWaiting ref (w.phaser ref).phase thread = true

/-- What the phaser counts, whoever uses it. -/
structure Crowd (ref : PhaserRef) (entries : List (ThreadId × Note)) (w : World) : Prop where
  parties : (w.phaser ref).parties + departures ref entries = registrations ref entries
  /-- A phase that enough have arrived at is over. -/
  short : (w.phaser ref).arrived = 0 ∨ (w.phaser ref).arrived < (w.phaser ref).parties
  arrived : (w.phaser ref).arrived = turnout ref (w.phaser ref).phase entries
  callers : ∃ callers, w.Awaits ref callers
  past : ∀ {thread phase}, w.isWaiting ref phase thread = true → phase ≤ (w.phaser ref).phase
  fresh : ∀ phase, (w.phaser ref).phase < phase → turnout ref phase entries = 0

/-- The phase goes on, or it is over, the next one begins and nobody waits for that. -/
def Crowd.Moves (ref : PhaserRef) (w v : World) : Prop :=
  (v.phaser ref).phase = (w.phaser ref).phase ∨
    (v.phaser ref).phase = (w.phaser ref).phase + 1 ∧ (v.phaser ref).arrived = 0 ∧
      ∀ thread, v.isWaiting ref (v.phaser ref).phase thread = false

/-- A call that has arrived at a phase waits as long as the phase goes on, and can return as soon as it is
over. -/
inductive Released (ref : PhaserRef) (w : World) (thread : ThreadId) (rest : List Frame)
    (phase : Nat) : Prop
  | waits (now : phase = (w.phaser ref).phase) (stays : w.move (.run thread) = none)
  | returns {next : World} {notes : List Note} (ended : phase < (w.phaser ref).phase)
      (moves : w.move (.run thread) = some (next, notes))
      (replies : (⟨w, .run thread, notes⟩ : Moment).Replies thread rest
        (.count (w.phaser ref).phase))

/-- What holds of a phaser between any two operations, and what an operation does to it. -/
structure Meaningful (ref : PhaserRef) (moments : List Moment) (v : World) : Prop where
  short : (v.phaser ref).arrived = 0 ∨ (v.phaser ref).arrived < (v.phaser ref).parties
  parties : (v.phaser ref).parties + departures ref (observations moments) =
    registrations ref (observations moments)
  /-- Every call that has arrived at the phase in progress is counted. -/
  arrived : (v.phaser ref).arrived = turnout ref (v.phaser ref).phase (observations moments)
  /-- None of them has been released, and each is that of a thread of its own. -/
  callers : ∃ callers, v.Awaits ref callers
  released : ∀ {thread rest phase},
    v.stack thread = .arrival { phaser := ref, recorded := some phase } :: rest →
    Released ref v thread rest phase
  moves : ∀ {pre moment post next}, moments = pre ++ moment :: post →
    moment.world.move moment.move = some (next, moment.notes) → Crowd.Moves ref moment.world next

section

variable {ref : PhaserRef} {w v : World} {self thread : ThreadId} {notes : List Note}
  {entries entries' : List (ThreadId × Note)}

theorem registrations_append (first second : List (ThreadId × Note)) :
    registrations ref (first ++ second) = registrations ref first + registrations ref second :=
  List.countP_append

theorem departures_append (first second : List (ThreadId × Note)) :
    departures ref (first ++ second) = departures ref first + departures ref second :=
  List.countP_append

theorem turnout_append (phase : Nat) (first second : List (ThreadId × Note)) :
    turnout ref phase (first ++ second) = turnout ref phase first + turnout ref phase second :=
  List.countP_append

/-- Notes about other things count for nothing. -/
theorem counts_quiet (self : ThreadId) (quiet : ∀ note ∈ notes, note.concerns ref = false) :
    registrations ref (notes.map ((self, ·))) = 0 ∧ departures ref (notes.map ((self, ·))) = 0 ∧
      ∀ phase, turnout ref phase (notes.map ((self, ·))) = 0 := by
  simp only [registrations, departures, turnout, List.countP_map, List.countP_eq_zero]
  refine ⟨fun note mem => ?_, fun note mem => ?_, fun phase note mem => ?_⟩ <;>
    have := quiet note mem <;>
    cases note <;>
    simp_all [Note.isRegistration, Note.isDeparture, Note.isArrival, Note.concerns]

namespace Crowd

/-- What leaves the phaser and those that wait for the phase in progress as they are keeps the count. -/
theorem calm (crowd : Crowd ref entries w) (same : v.phaser ref = w.phaser ref)
    (registers : registrations ref entries' = registrations ref entries)
    (departs : departures ref entries' = departures ref entries)
    (arrives : ∀ phase, turnout ref phase entries' = turnout ref phase entries)
    (kept : ∀ thread, v.isWaiting ref (w.phaser ref).phase thread =
      w.isWaiting ref (w.phaser ref).phase thread)
    (fewer : ∀ phase thread, v.isWaiting ref phase thread = true →
      w.isWaiting ref phase thread = true) : Crowd ref entries' v where
  parties := by rw [same, registers, departs, crowd.parties]
  short := same ▸ crowd.short
  arrived := by rw [same, arrives, crowd.arrived]
  callers := by
    obtain ⟨callers, distinct, length, mem⟩ := crowd.callers
    exact ⟨callers, distinct, by rw [length, same], fun thread => by rw [mem, same, kept]⟩
  past := fun waits => by
    rw [same]
    exact crowd.past (fewer _ _ waits)
  fresh := fun phase later => by rw [arrives, crowd.fresh phase (same ▸ later)]

/-- A phase that begins finds nobody waiting for it. -/
theorem begins {parties phase : Nat}
    (value : v.phaser ref = { parties := parties, arrived := 0, phase := phase + 1 })
    (count : parties + departures ref entries' = registrations ref entries')
    (late : ∀ {thread k}, v.isWaiting ref k thread = true → k ≤ phase)
    (fresh : ∀ k, phase < k → turnout ref k entries' = 0) : Crowd ref entries' v where
  parties := by rw [value, count]
  short := .inl (by rw [value])
  arrived := by rw [value, fresh _ (Nat.lt_succ_self phase)]
  callers := by
    refine ⟨[], List.nodup_nil, by simp [value], fun thread => ?_⟩
    refine ⟨fun mem => by simp at mem, fun waits => ?_⟩
    have early := late waits
    rw [value] at early
    exact absurd early (Nat.not_succ_le_self phase)
  past := fun waits => by
    rw [value]
    exact Nat.le_succ_of_le (late waits)
  fresh := fun k later => fresh k (by rw [value] at later; exact Nat.lt_of_succ_lt later)

theorem released (crowd : Crowd ref entries v)
    (next : (v.phaser ref).phase = (w.phaser ref).phase + 1) (arrived : (v.phaser ref).arrived = 0) :
    Moves ref w v := by
  obtain ⟨callers, -, length, mem⟩ := crowd.callers
  obtain rfl : callers = [] := List.length_eq_zero_iff.mp (length.trans arrived)
  refine .inr ⟨next, arrived, fun thread => ?_⟩
  rw [Bool.eq_false_iff, Ne, ← mem]
  exact List.not_mem_nil

/-- A party more makes the phase no shorter. -/
theorem register (crowd : Crowd ref entries w) (same : v.phaser ref = (w.phaser ref).register)
    (registers : registrations ref entries' = registrations ref entries + 1)
    (departs : departures ref entries' = departures ref entries)
    (arrives : ∀ phase, turnout ref phase entries' = turnout ref phase entries)
    (kept : ∀ thread, v.isWaiting ref (w.phaser ref).phase thread =
      w.isWaiting ref (w.phaser ref).phase thread)
    (fewer : ∀ phase thread, v.isWaiting ref phase thread = true →
      w.isWaiting ref phase thread = true) : Crowd ref entries' v where
  parties := by
    have count := crowd.parties
    rw [same, registers, departs, Phaser.register_parties]
    omega
  short := by
    rw [same]
    exact crowd.short.imp_right Nat.lt_succ_of_lt
  arrived := by
    rw [same, arrives]
    exact crowd.arrived
  callers := by
    obtain ⟨callers, distinct, length, mem⟩ := crowd.callers
    refine ⟨callers, distinct, by rw [length, same, Phaser.register_arrived], fun thread => ?_⟩
    rw [mem, same, Phaser.register_phase, kept]
  past := fun waits => by
    rw [same]
    exact crowd.past (fewer _ _ waits)
  fresh := fun phase later => by rw [arrives, crowd.fresh phase (by rwa [same] at later)]

/-- A party less may be what the phase has waited for. -/
theorem depart (crowd : Crowd ref entries w) (some : (w.phaser ref).parties ≠ 0)
    (same : v.phaser ref = (w.phaser ref).depart)
    (registers : registrations ref entries' = registrations ref entries)
    (departs : departures ref entries' = departures ref entries + 1)
    (arrives : ∀ phase, turnout ref phase entries' = turnout ref phase entries)
    (kept : ∀ thread, v.isWaiting ref (w.phaser ref).phase thread =
      w.isWaiting ref (w.phaser ref).phase thread)
    (fewer : ∀ phase thread, v.isWaiting ref phase thread = true →
      w.isWaiting ref phase thread = true) :
    Crowd ref entries' v ∧ Moves ref w v := by
  have count := crowd.parties
  by_cases ended : 0 < (w.phaser ref).arrived ∧ (w.phaser ref).IsLast
  · have value := same.trans (Phaser.depart_last ended)
    have crowd' : Crowd ref entries' v :=
      begins value (by omega) (fun waits => crowd.past (fewer _ _ waits))
        fun k later => (arrives k).trans (crowd.fresh k later)
    exact ⟨crowd', crowd'.released (by rw [value]) (by rw [value])⟩
  · have value := same.trans (Phaser.depart_early ended)
    unfold Phaser.IsLast at ended
    refine ⟨⟨?_, ?_, ?_, ?_, ?_, ?_⟩, .inl (by rw [value])⟩
    · rw [value, registers, departs]
      dsimp only
      omega
    · rw [value]
      dsimp only
      omega
    · rw [value, arrives]
      exact crowd.arrived
    · obtain ⟨callers, distinct, length, mem⟩ := crowd.callers
      exact ⟨callers, distinct, by rw [length, value], fun thread => by rw [mem, value, kept]⟩
    · intro thread phase waits
      rw [value]
      exact crowd.past (fewer _ _ waits)
    · intro phase later
      rw [arrives, crowd.fresh phase (by rwa [value] at later)]

/-- A call arrives that is not enough. -/
theorem arrive (crowd : Crowd ref entries w)
    (idle : w.isWaiting ref (w.phaser ref).phase self = false) (early : ¬ (w.phaser ref).IsLast)
    (same : v.phaser ref = (w.phaser ref).arrive)
    (registers : registrations ref entries' = registrations ref entries)
    (departs : departures ref entries' = departures ref entries)
    (arrives : ∀ phase, turnout ref phase entries' =
      turnout ref phase entries + if phase = (w.phaser ref).phase then 1 else 0)
    (waits : ∀ phase thread, v.isWaiting ref phase thread =
      if thread = self then decide (phase = (w.phaser ref).phase)
      else w.isWaiting ref phase thread) : Crowd ref entries' v := by
  have value : v.phaser ref = { w.phaser ref with arrived := (w.phaser ref).arrived + 1 } :=
    same.trans (if_neg early)
  have short : (w.phaser ref).arrived + 1 < (w.phaser ref).parties := Nat.lt_of_not_le early
  refine ⟨by rw [value, registers, departs, crowd.parties], .inr (by rw [value]; exact short), ?_, ?_,
    ?_, ?_⟩
  · rw [value, arrives, if_pos rfl, ← crowd.arrived]
  · obtain ⟨callers, distinct, length, mem⟩ := crowd.callers
    have stranger : self ∉ callers := fun there => by simp [(mem self).mp there] at idle
    refine ⟨self :: callers, List.nodup_cons.mpr ⟨stranger, distinct⟩, by simp [value, length],
      fun thread => ?_⟩
    rw [value, waits, List.mem_cons, mem]
    by_cases own : thread = self <;> simp [own]
  · intro thread phase waiting
    rw [waits] at waiting
    rw [value]
    split at waiting
    · exact Nat.le_of_eq (of_decide_eq_true waiting)
    · exact crowd.past waiting
  · intro phase later
    rw [value] at later
    have other : phase ≠ (w.phaser ref).phase := Nat.ne_of_gt later
    rw [arrives, crowd.fresh phase later, if_neg other]

/-- A call arrives that is enough, and all are released. -/
theorem complete (crowd : Crowd ref entries w) (last : (w.phaser ref).IsLast)
    (same : v.phaser ref = (w.phaser ref).arrive)
    (registers : registrations ref entries' = registrations ref entries)
    (departs : departures ref entries' = departures ref entries)
    (arrives : ∀ phase, turnout ref phase entries' =
      turnout ref phase entries + if phase = (w.phaser ref).phase then 1 else 0)
    (fewer : ∀ phase thread, v.isWaiting ref phase thread = true →
      w.isWaiting ref phase thread = true) :
    Crowd ref entries' v ∧ Moves ref w v := by
  have value : v.phaser ref =
      { parties := (w.phaser ref).parties, arrived := 0, phase := (w.phaser ref).phase + 1 } :=
    same.trans (if_pos last)
  have crowd' : Crowd ref entries' v :=
    begins value (by rw [registers, departs, crowd.parties])
      (fun waits => crowd.past (fewer _ _ waits)) fun k later => by
        rw [arrives, crowd.fresh k later, if_neg (Nat.ne_of_gt later)]
  exact ⟨crowd', crowd'.released (by rw [value]) (by rw [value])⟩

theorem step (crowd : Crowd ref entries w) (laid : w.IsLaid) (steps : w.step self = some (v, notes)) :
    Crowd ref (entries ++ notes.map ((self, ·))) v ∧ Moves ref w v := by
  obtain ⟨frame, rest, effect, stack, step, rfl, rfl⟩ := World.step_eq_some steps
  have waits (phase : Nat) (thread : ThreadId) :
      (effect.world.setStack self (effect.control.stack rest)).isWaiting ref phase thread =
        if thread = self then effect.control.enters (Frame.isWaiting ref phase)
        else w.isWaiting ref phase thread :=
    World.isAt_step Frame.isLeaf_of_isWaiting (stack ▸ laid self) step thread
  have idle : w.isWaiting ref (w.phaser ref).phase self = false := by
    rw [Bool.eq_false_iff]
    intro waits
    obtain ⟨top, _, same, waiting⟩ := World.isAt_iff.mp waits
    obtain ⟨rfl, -⟩ := List.cons.inj (stack.symm.trans same)
    exact Frame.waits_on waiting step rfl
  have kept (on : ∀ phase, effect.control.enters (Frame.isWaiting ref phase) = false)
      (thread : ThreadId) :
      (effect.world.setStack self (effect.control.stack rest)).isWaiting ref (w.phaser ref).phase
        thread = w.isWaiting ref (w.phaser ref).phase thread := by
    rw [waits, on]
    by_cases own : thread = self <;> simp [own, idle]
  have fewer (on : ∀ phase, effect.control.enters (Frame.isWaiting ref phase) = false) (phase : Nat)
      (thread : ThreadId)
      (waiting : (effect.world.setStack self (effect.control.stack rest)).isWaiting ref phase thread =
        true) : w.isWaiting ref phase thread = true := by
    rw [waits, on] at waiting
    split at waiting
    · simp at waiting
    · exact waiting
  obtain ⟨registered, departed, arrived⟩ :=
    counts_quiet self (effect.control.completion_quiet rest)
  rw [List.map_append, ← List.append_assoc]
  have registers (head : List Note) (count : Nat)
      (here : registrations ref (head.map ((self, ·))) = count) :
      registrations ref (entries ++ head.map ((self, ·)) ++
        (effect.control.completion rest).map ((self, ·))) = registrations ref entries + count := by
    rw [registrations_append, registrations_append, registered, here, Nat.add_zero]
  have departs (head : List Note) (count : Nat)
      (here : departures ref (head.map ((self, ·))) = count) :
      departures ref (entries ++ head.map ((self, ·)) ++
        (effect.control.completion rest).map ((self, ·))) = departures ref entries + count := by
    rw [departures_append, departures_append, departed, here, Nat.add_zero]
  have arrives (head : List Note) (phase count : Nat)
      (here : turnout ref phase (head.map ((self, ·))) = count) :
      turnout ref phase (entries ++ head.map ((self, ·)) ++
        (effect.control.completion rest).map ((self, ·))) = turnout ref phase entries + count := by
    rw [turnout_append, turnout_append, arrived, here, Nat.add_zero]
  have turns : effect.Turns ref w frame := Frame.turns step
  cases turns with
  | keeps same quiet on =>
    obtain ⟨registered, departed, arrived⟩ := counts_quiet self quiet
    exact ⟨crowd.calm same (registers _ 0 registered) (departs _ 0 departed)
      (fun phase => arrives _ phase 0 (arrived phase)) (kept on) (fewer on),
      .inl (congrArg Phaser.phase same)⟩
  | registers same noted on =>
    rw [noted]
    exact ⟨crowd.register same (registers _ 1 (by simp [registrations, Note.isRegistration]))
      (departs _ 0 (by simp [departures, Note.isDeparture]))
      (fun phase => arrives _ phase 0 (by simp [turnout, Note.isArrival])) (kept on) (fewer on),
      .inl ((congrArg Phaser.phase same).trans (Phaser.register_phase _))⟩
  | @departs later same noted quiet on some =>
    obtain ⟨registered, departed, arrived⟩ := counts_quiet self quiet
    rw [noted]
    refine crowd.depart some same (registers _ 0 ?_) (departs _ 1 ?_)
      (fun phase => arrives _ phase 0 ?_) (kept on) (fewer on)
    · rw [List.map_cons, registrations, List.countP_cons_of_neg (by simp [Note.isRegistration])]
      exact registered
    · rw [List.map_cons, departures, List.countP_cons_of_pos (by simp [Note.isDeparture])]
      exact congrArg (· + 1) departed
    · rw [List.map_cons, turnout, List.countP_cons_of_neg (by simp [Note.isArrival])]
      exact arrived phase
  | waits top last same noted control =>
    rw [noted]
    refine ⟨crowd.arrive idle last same (registers _ 0 (by simp [registrations, Note.isRegistration]))
      (departs _ 0 (by simp [departures, Note.isDeparture])) (fun phase => arrives _ phase _ ?_)
      (fun phase thread => ?_), .inl ?_⟩
    · simp [turnout, Note.isArrival, List.countP_cons, eq_comm]
    · rw [waits, control]
      simp [Control.enters, Frame.isWaiting, eq_comm]
    · refine (congrArg Phaser.phase same).trans ?_
      rw [Phaser.arrive_phase, if_neg last]
  | completes top last same noted control =>
    have on (phase : Nat) : effect.control.enters (Frame.isWaiting ref phase) = false := by
      rw [control]
      rfl
    rw [noted]
    refine crowd.complete last same (registers _ 0 (by simp [registrations, Note.isRegistration]))
      (departs _ 0 (by simp [departures, Note.isDeparture])) (fun phase => arrives _ phase _ ?_)
      (fewer on)
    simp [turnout, Note.isArrival, List.countP_cons, eq_comm]

theorem move {move : Move} (crowd : Crowd ref entries w) (laid : w.IsLaid)
    (moves : w.move move = some (v, notes)) :
    Crowd ref (entries ++ (⟨w, move, notes⟩ : Moment).observed) v ∧ Moves ref w v := by
  by_cases runs : ∃ self, move = .run self
  · obtain ⟨self, rfl⟩ := runs
    exact crowd.step laid moves
  · have other (self : ThreadId) : move ≠ .run self := fun same => runs ⟨self, same⟩
    have silent : (⟨w, move, notes⟩ : Moment).observed = [] := by
      cases move with
      | run self => exact absurd rfl (other self)
      | _ => rfl
    have same : v.phaser ref = w.phaser ref := World.phaser_other moves other
    rw [silent, List.append_nil]
    refine ⟨crowd.calm same rfl rfl (fun _ => rfl)
      (fun thread => World.isWaiting_other moves (other thread) _) (fun phase thread => ?_),
      .inl (congrArg Phaser.phase same)⟩
    rw [World.isWaiting_other moves (other thread)]
    exact id

/-- Who has arrived waits for the phase in progress, or can return. -/
theorem waits_or_returns {rest : List Frame} {phase : Nat} (crowd : Crowd ref entries w)
    (stack : w.stack thread = .arrival { phaser := ref, recorded := some phase } :: rest) :
    Released ref w thread rest phase := by
  have past := crowd.past (World.isWaiting_iff.mpr ⟨rest, stack⟩)
  by_cases now : phase = (w.phaser ref).phase
  · refine .waits now ?_
    cases moves : w.move (.run thread) with
    | none => rfl
    | some next =>
      obtain ⟨frame, below, effect, top, step, -, -⟩ := World.step_eq_some moves
      obtain ⟨rfl, -⟩ := List.cons.inj (stack.symm.trans top)
      exact absurd now.symm (Frame.waits_on (by simp [Frame.isWaiting]) step)
  · have ended : (w.phaser ref).phase ≠ phase := Ne.symm now
    have step : (Frame.arrival { phaser := ref, recorded := some phase }).advance thread w =
        some ⟨w, .reply (.count (w.phaser ref).phase), []⟩ := by
      simp [Frame.advance, Arrival.advance, ended, Effect.reply]
    exact .returns (Nat.lt_of_le_of_ne past now) (World.move_of_advance stack step)
      ⟨rfl, _, _, stack, step, rfl⟩

end Crowd

theorem Course.crowd {custom : World → ThreadId → Prop} {moments : List Moment}
    (idle : ∀ thread, w.stack thread = []) (vacant : (w.phaser ref).parties = 0)
    (unmet : (w.phaser ref).arrived = 0) (course : Course custom w moments v) :
    Crowd ref (observations moments) v := by
  induction course with
  | nil =>
    have nobody (phase : Nat) (thread : ThreadId) : w.isWaiting ref phase thread = false :=
      World.isAt_nil (idle thread)
    exact ⟨vacant, .inl unmet, unmet, ⟨[], List.nodup_nil, unmet.symm, by simp [nobody]⟩,
      fun waits => by simp [nobody] at waits, fun _ _ => rfl⟩
  | snoc course _ moves ih =>
    rw [observations_append, observations_cons, observations_nil, List.append_nil]
    have laid : World.IsLaid _ := course.isLaid fun thread => by
      rw [idle]
      trivial
    exact (ih.move laid moves).1

/-- Whatever is done to a phaser that had no parties at first, what it counts keeps its meaning. -/
theorem phaser_counts {custom : World → ThreadId → Prop} {moments : List Moment}
    (idle : ∀ thread, w.stack thread = []) (vacant : (w.phaser ref).parties = 0)
    (unmet : (w.phaser ref).arrived = 0) (course : Course custom w moments v) :
    Meaningful ref moments v := by
  have crowd := course.crowd idle vacant unmet
  refine ⟨crowd.short, crowd.parties, crowd.arrived, crowd.callers, crowd.waits_or_returns,
    fun {pre moment post next} parts moved => ?_⟩
  obtain ⟨_, before, -, -, -⟩ := course.split parts
  have laid : World.IsLaid _ := before.isLaid fun thread => by
    rw [idle]
    trivial
  exact ((before.crowd idle vacant unmet).move laid moved).2

/-- The second thread is no party and arrives twice, the first time before the only party and the second
time alone; the first thread departs while it waits. -/
def strayArrivals : List Move :=
  Move.repeated [
    (1, .submit 0 (.access (.phaserRegister 0))), (1, .run 0),
    (1, .submit 0 (.access (.phaserRegister 0))), (1, .run 0),
    (1, .submit 1 (.phaserArrive 0)), (2, .run 1),
    (1, .submit 0 (.phaserArrive 0)), (2, .run 0), (1, .run 1),
    (1, .submit 1 (.phaserArrive 0)), (2, .run 1),
    (1, .submit 0 (.access (.phaserDepart 0))), (1, .run 0)]

theorem phaser_counts_strayArrivals : ∃ moments v, (∀ thread, World.pair.stack thread = []) ∧
    (World.pair.phaser (.loose 0)).parties = 0 ∧ (World.pair.phaser (.loose 0)).arrived = 0 ∧
    Course (fun _ _ => True) World.pair moments v ∧
    (v.phaser (.loose 0)).phase = 2 ∧ (v.phaser (.loose 0)).parties = 1 ∧
    Meaningful (.loose 0) moments v := by
  have made : (World.pair.follow (fun _ _ => true) strayArrivals).any (fun made =>
      (made.2.phaser (.loose 0)).phase = 2 && (made.2.phaser (.loose 0)).parties = 1) = true := by
    decide +kernel
  obtain ⟨⟨moments, v⟩, follows, state⟩ := (Option.any_eq_true _ _).mp made
  simp only [Bool.and_eq_true, decide_eq_true_eq] at state
  have course : Course (fun _ _ => True) World.pair moments v :=
    World.course_of_follow (fun _ _ _ => trivial) follows
  exact ⟨moments, v, World.pair_isFresh.idle, rfl, rfl, course, state.1, state.2,
    phaser_counts World.pair_isFresh.idle rfl rfl course⟩

end

end StopTheWorld
