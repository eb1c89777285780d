import StopTheWorld.Proofs.PauseCall
import StopTheWorld.Proofs.Turns

namespace StopTheWorld

/-! The rounds of a phaser whose users register, arrive any number of times and depart, each in its
own order. The phaser only counts; who it is that has arrived shows in the threads that wait. -/

/-- The parties of a phaser after a note of a thread. -/
def Note.enrols (ref : PhaserRef) (thread : ThreadId) (parties : List ThreadId) :
    Note → List ThreadId
  | registered phaser => if phaser = ref then thread :: parties else parties
  | departed phaser => if phaser = ref then parties.erase thread else parties
  | _ => parties

/-- A thread registers if it is no party, and arrives and departs if it is one. -/
def Note.isDue (ref : PhaserRef) (thread : ThreadId) (parties : List ThreadId) : Note → Bool
  | registered phaser => phaser ≠ ref || thread ∉ parties
  | departed phaser | arrived phaser _ => phaser ≠ ref || thread ∈ parties
  | _ => true

/-- The parties that are left after what was observed. -/
def enrolled (ref : PhaserRef) (parties : List ThreadId) (entries : List (ThreadId × Note)) :
    List ThreadId :=
  entries.foldl (fun parties entry => entry.2.enrols ref entry.1 parties) parties

/-- Every thread keeps to its order: it registers, arrives any number of times, departs, and so on. -/
def inOrder (ref : PhaserRef) (parties : List ThreadId) : List (ThreadId × Note) → Bool
  | [] => true
  | (thread, note) :: later =>
    note.isDue ref thread parties && inOrder ref (note.enrols ref thread parties) later

def Note.isArrival (ref : PhaserRef) (phase : Nat) : Note → Bool
  | arrived phaser recorded => phaser = ref && recorded = phase
  | _ => false

/-- How often a thread was observed to arrive at a phase. -/
def arrivals (ref : PhaserRef) (phase : Nat) (thread : ThreadId)
    (entries : List (ThreadId × Note)) : Nat :=
  entries.countP fun entry => entry.1 = thread && entry.2.isArrival ref phase

section

variable {ref : PhaserRef} {w v : World} {self thread : ThreadId} {frame : Frame}
  {rest : List Frame} {effect : Effect} {notes : List Note} {parties : List ThreadId}
  {entries : List (ThreadId × Note)}

theorem enrolled_append (first second : List (ThreadId × Note)) :
    enrolled ref parties (first ++ second) = enrolled ref (enrolled ref parties first) second :=
  List.foldl_append ..

theorem inOrder_append (first second : List (ThreadId × Note)) :
    inOrder ref parties (first ++ second) =
      (inOrder ref parties first && inOrder ref (enrolled ref parties first) second) := by
  induction first generalizing parties with
  | nil => simp [inOrder, enrolled]
  | cons entry first ih => simp [inOrder, ih, enrolled, Bool.and_assoc]

theorem arrivals_append (phase : Nat) (first second : List (ThreadId × Note)) :
    arrivals ref phase thread (first ++ second) =
      arrivals ref phase thread first + arrivals ref phase thread second :=
  List.countP_append

/-- Notes about other things leave the parties as they are. -/
theorem enrolled_quiet (quiet : ∀ note ∈ notes, note.concerns ref = false) :
    enrolled ref parties (notes.map ((self, ·))) = parties := by
  induction notes with
  | nil => rfl
  | cons note notes ih =>
    have here : note.enrols ref self parties = parties := by
      have := quiet note (by simp)
      cases note <;> simp_all [Note.enrols, Note.concerns]
    simp only [List.map_cons, enrolled, List.foldl_cons, here]
    exact ih fun note mem => quiet note (by simp [mem])

theorem Note.isArrival_quiet {note : Note} (quiet : note.concerns ref = false) (phase : Nat) :
    note.isArrival ref phase = false := by
  cases note <;> simp_all [isArrival, concerns]

theorem arrivals_eq_zero {phase : Nat} (none : ∀ note ∈ notes, note.isArrival ref phase = false) :
    arrivals ref phase thread (notes.map ((self, ·))) = 0 := by
  simp only [arrivals, List.countP_eq_zero, List.mem_map]
  rintro _ ⟨note, mem, rfl⟩
  simp [none note mem]

theorem arrivals_arrived {phase recorded : Nat}
    (none : ∀ note ∈ notes, note.isArrival ref phase = false) :
    arrivals ref phase thread ((Note.arrived ref recorded :: notes).map ((self, ·))) =
      if phase = recorded ∧ thread = self then 1 else 0 := by
  have rest : (notes.map ((self, ·))).countP
      (fun entry => entry.1 = thread && entry.2.isArrival ref phase) = 0 := arrivals_eq_zero none
  rw [arrivals, List.map_cons, List.countP_cons, rest]
  simp only [Note.isArrival, decide_true, Bool.true_and, Bool.and_eq_true, decide_eq_true_eq,
    Nat.zero_add, eq_comm (a := self), eq_comm (a := recorded), and_comm]

theorem Control.completion_quiet (control : Control) (rest : List Frame) :
    ∀ note ∈ control.completion rest, note.concerns ref = false := by
  intro note mem
  obtain ⟨value, rfl⟩ := Control.completed_of_mem mem
  rfl

/-- What the phaser counts is what its parties do. Whoever waits is a party, and waits for the phase in
progress or has been released by the end of the one before. -/
structure Rounds (ref : PhaserRef) (entries : List (ThreadId × Note)) (w : World) : Prop where
  distinct : (enrolled ref [] entries).Nodup
  parties : (w.phaser ref).parties = (enrolled ref [] entries).length
  arrived : (w.phaser ref).arrived =
    (enrolled ref [] entries).countP fun thread => w.isWaiting ref (w.phaser ref).phase thread
  /-- A phase that everybody has arrived at is over. -/
  short : (w.phaser ref).arrived = 0 ∨ (w.phaser ref).arrived < (w.phaser ref).parties
  waiting : ∀ {thread phase}, w.isWaiting ref phase thread = true →
    thread ∈ enrolled ref [] entries ∧
      ((w.phaser ref).phase = phase ∨ (w.phaser ref).phase = phase + 1)
  once : ∀ thread, arrivals ref (w.phaser ref).phase thread entries =
    if w.isWaiting ref (w.phaser ref).phase thread then 1 else 0
  fresh : ∀ thread phase, (w.phaser ref).phase < phase → arrivals ref phase thread entries = 0

/-- The phase is over: each party has arrived at it, once, and nobody else has. -/
def Met (ref : PhaserRef) (phase : Nat) (entries : List (ThreadId × Note)) : Prop :=
  ∀ thread, arrivals ref phase thread entries = if thread ∈ enrolled ref [] entries then 1 else 0

/-- The phase goes on, or is over and the next one begins. -/
def Rounds.Moves (ref : PhaserRef) (entries : List (ThreadId × Note)) (w v : World) : Prop :=
  (v.phaser ref).phase = (w.phaser ref).phase ∨
    (v.phaser ref).phase = (w.phaser ref).phase + 1 ∧ Met ref (w.phaser ref).phase entries

theorem Frame.waits_on {phase : Nat} (waiting : frame.isWaiting ref phase = true)
    (step : frame.advance self w = some effect) : (w.phaser ref).phase ≠ phase := by
  cases frame with
  | arrival a =>
    obtain ⟨phaser, recorded⟩ := a
    simp only [isWaiting, Bool.and_eq_true, decide_eq_true_eq] at waiting
    obtain ⟨rfl, rfl⟩ := waiting
    simp only [advance, Arrival.advance] at step
    split at step
    · simp at step
    · assumption
  | _ => simp [isWaiting] at waiting

theorem World.isWaiting_unique {j k : Nat} (first : w.isWaiting ref j thread = true)
    (second : w.isWaiting ref k thread = true) : j = k := by
  obtain ⟨rest, stack⟩ := World.isWaiting_iff.mp first
  obtain ⟨rest', stack'⟩ := World.isWaiting_iff.mp second
  simpa using (List.cons.inj (stack.symm.trans stack')).1

namespace Phaser

theorem depart_last {phaser : Phaser} (ended : 0 < phaser.arrived ∧ phaser.IsLast) :
    phaser.depart =
      { parties := phaser.parties - 1, arrived := 0, phase := phaser.phase + 1 } := by
  unfold IsLast at ended
  exact if_pos ⟨ended.1, Nat.sub_le_of_le_add ended.2⟩

theorem depart_early {phaser : Phaser} (early : ¬ (0 < phaser.arrived ∧ phaser.IsLast)) :
    phaser.depart = { phaser with parties := phaser.parties - 1 } := by
  unfold IsLast at early
  exact if_neg fun ended => early ⟨ended.1, Nat.le_add_of_sub_le ended.2⟩

end Phaser

namespace Rounds

variable {entries' : List (ThreadId × Note)}

/-- What leaves the phaser and the waits for the phase in progress as they are keeps the count. -/
theorem calm (rounds : Rounds ref entries w) (same : v.phaser ref = w.phaser ref)
    (parties : enrolled ref [] entries' = enrolled ref [] entries)
    (arrivals : ∀ phase thread,
      arrivals ref phase thread entries' = arrivals ref phase thread entries)
    (kept : ∀ thread, v.isWaiting ref (w.phaser ref).phase thread =
      w.isWaiting ref (w.phaser ref).phase thread)
    (fewer : ∀ phase thread, v.isWaiting ref phase thread = true →
      w.isWaiting ref phase thread = true) : Rounds ref entries' v where
  distinct := parties ▸ rounds.distinct
  parties := by rw [same, parties, rounds.parties]
  arrived := by
    rw [same, parties, rounds.arrived]
    simp only [kept]
  short := same ▸ rounds.short
  waiting := fun waits => by
    rw [same, parties]
    exact rounds.waiting (fewer _ _ waits)
  once := fun thread => by rw [same, arrivals, kept, rounds.once]
  fresh := fun thread phase later => by rw [arrivals, rounds.fresh thread phase (same ▸ later)]

/-- When as many have arrived as there are other parties, these are all waiting. -/
theorem others_wait (rounds : Rounds ref entries w) (party : self ∈ enrolled ref [] entries)
    (idle : w.isWaiting ref (w.phaser ref).phase self = false)
    (all : (w.phaser ref).parties ≤ (w.phaser ref).arrived + 1) :
    ∀ other ∈ (enrolled ref [] entries).erase self,
      w.isWaiting ref (w.phaser ref).phase other = true := by
  have length := List.length_erase_of_mem party
  have count := List.countP_erase (fun thread => w.isWaiting ref (w.phaser ref).phase thread)
    (enrolled ref [] entries) self
  simp only [idle, Bool.false_eq_true, and_false, if_false, Nat.sub_zero, ← rounds.arrived] at count
  refine List.countP_eq_length.mp (Nat.le_antisymm List.countP_le_length ?_)
  rw [count, length, ← rounds.parties]
  omega

/-- A phase that begins finds nobody waiting for it. -/
theorem begins {phase : Nat} (distinct : (enrolled ref [] entries').Nodup)
    (value : v.phaser ref =
      { parties := (enrolled ref [] entries').length, arrived := 0, phase := phase + 1 })
    (late : ∀ {thread k}, v.isWaiting ref k thread = true →
      thread ∈ enrolled ref [] entries' ∧ k = phase)
    (fresh : ∀ thread k, phase < k → StopTheWorld.arrivals ref k thread entries' = 0) :
    Rounds ref entries' v := by
  have nobody (thread : ThreadId) : v.isWaiting ref (phase + 1) thread = false := by
    rw [Bool.eq_false_iff]
    intro waits
    have := (late waits).2
    omega
  refine ⟨distinct, by rw [value], ?_, .inl (by rw [value]), ?_, ?_, ?_⟩
  · simp [value, nobody]
  · intro thread k waits
    obtain ⟨party, rfl⟩ := late waits
    exact ⟨party, .inr (by rw [value])⟩
  · intro thread
    simp [value, nobody, fresh]
  · intro thread k later
    exact fresh thread k (by rw [value] at later; exact Nat.lt_of_succ_lt later)

/-- One more party has not arrived yet. -/
theorem register (rounds : Rounds ref entries w) (stranger : self ∉ enrolled ref [] entries)
    (same : v.phaser ref = (w.phaser ref).register)
    (parties : enrolled ref [] entries' = self :: enrolled ref [] entries)
    (counts : ∀ phase thread,
      arrivals ref phase thread entries' = arrivals ref phase thread entries)
    (waits : ∀ phase thread, v.isWaiting ref phase thread =
      (thread ≠ self && w.isWaiting ref phase thread)) : Rounds ref entries' v := by
  have elsewhere {thread : ThreadId} {phase : Nat} (waits : w.isWaiting ref phase thread = true) :
      thread ≠ self := fun same => stranger (same ▸ (rounds.waiting waits).1)
  have kept (phase : Nat) (thread : ThreadId) :
      v.isWaiting ref phase thread = w.isWaiting ref phase thread := by
    rw [waits]
    cases waiting : w.isWaiting ref phase thread
    · simp
    · simp [elsewhere waiting]
  refine ⟨?_, ?_, ?_, ?_, ?_, ?_, ?_⟩
  · rw [parties]
    exact List.nodup_cons.mpr ⟨stranger, rounds.distinct⟩
  · simp [same, parties, rounds.parties]
  · simp [same, parties, kept, rounds.arrived,
      show w.isWaiting ref (w.phaser ref).phase self = false from
        Bool.eq_false_iff.mpr fun waits => elsewhere waits rfl]
  · simp only [same, Phaser.register_arrived, Phaser.register_parties]
    exact rounds.short.imp_right Nat.lt_succ_of_lt
  · intro thread phase waiting
    obtain ⟨party, phase⟩ := rounds.waiting ((kept phase thread).symm.trans waiting)
    exact ⟨parties ▸ List.mem_cons_of_mem self party, by simpa [same] using phase⟩
  · intro thread
    simp [same, counts, kept, rounds.once]
  · intro thread phase later
    rw [counts, rounds.fresh thread phase (by simpa [same] using later)]

/-- A party that has not arrived goes. If only parties that have arrived are left, they have met. -/
theorem depart (rounds : Rounds ref entries w) (party : self ∈ enrolled ref [] entries)
    (idle : w.isWaiting ref (w.phaser ref).phase self = false)
    (same : v.phaser ref = (w.phaser ref).depart)
    (parties : enrolled ref [] entries' = (enrolled ref [] entries).erase self)
    (counts : ∀ phase thread,
      arrivals ref phase thread entries' = arrivals ref phase thread entries)
    (waits : ∀ phase thread, v.isWaiting ref phase thread =
      (thread ≠ self && w.isWaiting ref phase thread)) :
    Rounds ref entries' v ∧ Moves ref entries' w v := by
  have length := List.length_erase_of_mem party
  have distinct : (enrolled ref [] entries').Nodup := parties ▸ rounds.distinct.erase self
  have stays {thread : ThreadId} {phase : Nat} (waits : w.isWaiting ref phase thread = true)
      (other : thread ≠ self) : thread ∈ enrolled ref [] entries' := by
    rw [parties]
    exact (List.mem_erase_of_ne other).mpr (rounds.waiting waits).1
  have size : (w.phaser ref).depart.parties = (enrolled ref [] entries').length := by
    rw [Phaser.depart_parties, parties, length, rounds.parties]
  by_cases ended : 0 < (w.phaser ref).arrived ∧ (w.phaser ref).IsLast
  · have value : v.phaser ref =
        { parties := (enrolled ref [] entries').length, arrived := 0
          phase := (w.phaser ref).phase + 1 } := by
      rw [same, Phaser.depart_last ended, ← size, Phaser.depart_parties]
    have others := rounds.others_wait party idle ended.2
    refine ⟨begins distinct value ?_ fun thread k later => (counts k thread).trans
      (rounds.fresh thread k later), .inr ⟨by rw [value], fun thread => ?_⟩⟩
    · intro thread k waiting
      simp only [waits, Bool.and_eq_true, decide_eq_true_eq] at waiting
      have party := stays waiting.2 waiting.1
      exact ⟨party, World.isWaiting_unique waiting.2 (others thread (parties ▸ party))⟩
    · rw [counts, rounds.once]
      congr 1
      rw [eq_iff_iff]
      constructor
      · intro waiting
        exact stays waiting fun same => by simp [same ▸ waiting] at idle
      · exact fun party => others thread (parties ▸ party)
  · have value : v.phaser ref = { w.phaser ref with
        parties := (enrolled ref [] entries').length } := by
      rw [same, Phaser.depart_early ended, ← size, Phaser.depart_parties]
    refine ⟨⟨distinct, by rw [value], ?_, ?_, ?_, ?_, ?_⟩, .inl (by rw [value])⟩
    · have kept (thread : ThreadId) : v.isWaiting ref (w.phaser ref).phase thread =
          w.isWaiting ref (w.phaser ref).phase thread := by
        rw [waits]
        by_cases own : thread = self
        · rw [own, idle, Bool.and_false]
        · simp [own]
      rw [value, parties]
      simp [List.countP_erase, idle, kept, rounds.arrived]
    · have := rounds.parties
      unfold Phaser.IsLast at ended
      rw [value]
      dsimp only
      rw [parties, length]
      omega
    · intro thread phase waiting
      simp only [waits, Bool.and_eq_true, decide_eq_true_eq] at waiting
      exact ⟨stays waiting.2 waiting.1, by rw [value]; exact (rounds.waiting waiting.2).2⟩
    · intro thread
      rw [value, counts, rounds.once, waits]
      by_cases own : thread = self
      · simp [own, idle]
      · simp [own]
    · intro thread phase later
      rw [counts, rounds.fresh thread phase (by rw [value] at later; exact later)]

/-- A party arrives that is not the last. -/
theorem arrive (rounds : Rounds ref entries w) (party : self ∈ enrolled ref [] entries)
    (idle : w.isWaiting ref (w.phaser ref).phase self = false) (early : ¬ (w.phaser ref).IsLast)
    (same : v.phaser ref = (w.phaser ref).arrive)
    (parties : enrolled ref [] entries' = enrolled ref [] entries)
    (counts : ∀ phase thread, arrivals ref phase thread entries' =
      arrivals ref phase thread entries +
        if phase = (w.phaser ref).phase ∧ thread = self then 1 else 0)
    (waits : ∀ phase thread, v.isWaiting ref phase thread =
      if thread = self then decide (phase = (w.phaser ref).phase)
      else w.isWaiting ref phase thread) : Rounds ref entries' v := by
  have value : v.phaser ref = { w.phaser ref with arrived := (w.phaser ref).arrived + 1 } :=
    same.trans (if_neg early)
  have short : (w.phaser ref).arrived + 1 < (w.phaser ref).parties := Nat.lt_of_not_le early
  refine ⟨parties ▸ rounds.distinct, by rw [value, parties, rounds.parties], ?_,
    .inr (by rw [value]; exact short), ?_, ?_, ?_⟩
  · have apart := List.perm_cons_erase party
    rw [value, parties, apart.countP_eq, List.countP_cons_of_pos (by simp [waits]),
      rounds.arrived, apart.countP_eq, List.countP_cons_of_neg (by simp [idle])]
    refine congrArg (· + 1) (List.countP_congr fun other mem => ?_)
    rw [waits, if_neg (rounds.distinct.mem_erase_iff.mp mem).1]
  · intro thread phase waiting
    rw [waits] at waiting
    rw [value, parties]
    split at waiting
    · rename_i own
      exact ⟨own ▸ party, .inl (of_decide_eq_true waiting).symm⟩
    · exact rounds.waiting waiting
  · intro thread
    rw [value, counts, rounds.once, waits]
    by_cases own : thread = self <;> simp [own, idle]
  · intro thread phase later
    rw [value] at later
    rw [counts, rounds.fresh thread phase later, if_neg (by dsimp only at later; omega)]

/-- The last party arrives, and all have met. -/
theorem complete (rounds : Rounds ref entries w) (party : self ∈ enrolled ref [] entries)
    (idle : w.isWaiting ref (w.phaser ref).phase self = false) (last : (w.phaser ref).IsLast)
    (same : v.phaser ref = (w.phaser ref).arrive)
    (parties : enrolled ref [] entries' = enrolled ref [] entries)
    (counts : ∀ phase thread, arrivals ref phase thread entries' =
      arrivals ref phase thread entries +
        if phase = (w.phaser ref).phase ∧ thread = self then 1 else 0)
    (waits : ∀ phase thread, v.isWaiting ref phase thread =
      (thread ≠ self && w.isWaiting ref phase thread)) :
    Rounds ref entries' v ∧ Moves ref entries' w v := by
  have value : v.phaser ref =
      { parties := (enrolled ref [] entries').length, arrived := 0
        phase := (w.phaser ref).phase + 1 } := by
    rw [parties, ← rounds.parties]
    exact same.trans (if_pos last)
  have others := rounds.others_wait party idle last
  refine ⟨begins (parties ▸ rounds.distinct) value ?_ fun thread k later => ?_,
    .inr ⟨by rw [value], fun thread => ?_⟩⟩
  · intro thread k waiting
    simp only [waits, Bool.and_eq_true, decide_eq_true_eq] at waiting
    have party := (rounds.waiting waiting.2).1
    exact ⟨parties ▸ party,
      World.isWaiting_unique waiting.2 (others thread ((List.mem_erase_of_ne waiting.1).mpr party))⟩
  · rw [counts, rounds.fresh thread k later, if_neg (by omega)]
  · rw [counts, rounds.once, parties]
    by_cases own : thread = self
    · simp [own, idle, party]
    · have met : w.isWaiting ref (w.phaser ref).phase thread = true ↔
          thread ∈ enrolled ref [] entries :=
        ⟨fun waiting => (rounds.waiting waiting).1,
          fun party => others thread ((List.mem_erase_of_ne own).mpr party)⟩
      simp [own, met]

/-- A step of a thread keeps the count, and ends the phase only when everybody has met. -/
theorem step (rounds : Rounds ref entries w) (laid : w.IsLaid)
    (steps : w.step self = some (v, notes))
    (ordered : inOrder ref (enrolled ref [] entries) (notes.map ((self, ·))) = true) :
    Rounds ref (entries ++ notes.map ((self, ·))) v ∧
      Moves ref (entries ++ notes.map ((self, ·))) w v := by
  obtain ⟨frame, rest, effect, stack, step, rfl, rfl⟩ := World.step_eq_some steps
  have waits (phase : Nat) (thread : ThreadId) :
      (effect.world.setStack self (effect.control.stack rest)).isWaiting ref phase thread =
        if thread = self then effect.control.enters (Frame.isWaiting ref phase)
        else w.isWaiting ref phase thread :=
    World.isAt_step Frame.isLeaf_of_isWaiting (stack ▸ laid self) step thread
  have idle : w.isWaiting ref (w.phaser ref).phase self = false := by
    rw [Bool.eq_false_iff]
    intro waits
    obtain ⟨top, _, same, waiting⟩ := World.isAt_iff.mp waits
    obtain ⟨rfl, -⟩ := List.cons.inj (stack.symm.trans same)
    exact Frame.waits_on waiting step rfl
  have away (on : ∀ phase, effect.control.enters (Frame.isWaiting ref phase) = false) (phase : Nat)
      (thread : ThreadId) :
      (effect.world.setStack self (effect.control.stack rest)).isWaiting ref phase thread =
        (thread ≠ self && w.isWaiting ref phase thread) := by
    rw [waits, on]
    by_cases own : thread = self <;> simp [own]
  have quiet : ∀ note ∈ effect.control.completion rest, note.concerns ref = false :=
    effect.control.completion_quiet rest
  have parties : enrolled ref [] (entries ++ (effect.notes ++ effect.control.completion rest).map
      ((self, ·))) = enrolled ref (enrolled ref [] entries) (effect.notes.map ((self, ·))) := by
    rw [enrolled_append, List.map_append, enrolled_append, enrolled_quiet quiet]
  have counts (phase : Nat) (thread : ThreadId) : arrivals ref phase thread
      (entries ++ (effect.notes ++ effect.control.completion rest).map ((self, ·))) =
        arrivals ref phase thread entries +
          arrivals ref phase thread (effect.notes.map ((self, ·))) := by
    rw [arrivals_append, List.map_append, arrivals_append,
      arrivals_eq_zero fun note mem => Note.isArrival_quiet (quiet note mem) phase, Nat.add_zero]
  rw [List.map_append, inOrder_append, Bool.and_eq_true] at ordered
  replace ordered := ordered.1
  have turns : effect.Turns ref w frame := Frame.turns step
  cases turns with
  | keeps same quiet on =>
    rw [enrolled_quiet quiet] at parties
    refine ⟨rounds.calm same parties (fun phase thread => ?_) (fun thread => ?_)
      (fun phase thread => ?_), .inl (congrArg Phaser.phase same)⟩
    · rw [counts, arrivals_eq_zero fun note mem => Note.isArrival_quiet (quiet note mem) phase,
        Nat.add_zero]
    · rw [away on]
      by_cases own : thread = self <;> simp [own, idle]
    · rw [away on, Bool.and_eq_true]
      exact And.right
  | registers same noted on =>
    rw [noted] at parties counts ordered ⊢
    simp only [List.map_cons, inOrder, Note.isDue, Bool.and_eq_true, Bool.or_eq_true,
      decide_eq_true_eq, ne_eq, not_true, false_or] at ordered
    refine ⟨rounds.register (ordered.1) same (parties.trans (if_pos rfl))
      (fun phase thread => ?_) (away on), .inl ?_⟩
    · rw [counts, arrivals_eq_zero (by simp [Note.isArrival]), Nat.add_zero]
    · exact (congrArg Phaser.phase same).trans (Phaser.register_phase _)
  | departs same noted later on =>
    rw [noted] at parties counts ordered ⊢
    simp only [List.map_cons, inOrder, Note.isDue, Bool.and_eq_true, Bool.or_eq_true,
      decide_eq_true_eq, ne_eq, not_true, false_or] at ordered
    refine rounds.depart (ordered.1) idle same (parties.trans ?_) (fun phase thread => ?_)
      (away on)
    · refine (enrolled_quiet later).trans ?_
      simp [Note.enrols]
    · rw [counts, arrivals_eq_zero, Nat.add_zero]
      intro note mem
      obtain rfl | mem := List.mem_cons.mp mem
      · rfl
      · exact Note.isArrival_quiet (later note mem) phase
  | waits top last same noted control =>
    rw [noted] at parties counts ordered ⊢
    simp only [List.map_cons, inOrder, Note.isDue, Bool.and_eq_true, Bool.or_eq_true,
      decide_eq_true_eq, ne_eq, not_true, false_or] at ordered
    refine ⟨rounds.arrive (ordered.1) idle last same parties (fun phase thread => ?_)
      (fun phase thread => ?_), .inl ?_⟩
    · rw [counts]
      exact congrArg _ (arrivals_arrived (by simp))
    · rw [waits, control]
      simp [Control.enters, Frame.isWaiting, eq_comm]
    · refine (congrArg Phaser.phase same).trans ?_
      rw [Phaser.arrive_phase, if_neg last]
  | completes top last same noted control =>
    rw [noted] at parties counts ordered ⊢
    simp only [List.map_cons, inOrder, Note.isDue, Bool.and_eq_true, Bool.or_eq_true,
      decide_eq_true_eq, ne_eq, not_true, false_or] at ordered
    refine rounds.complete (ordered.1) idle last same parties (fun phase thread => ?_)
      (away fun _ => by rw [control]; rfl)
    rw [counts]
    exact congrArg _ (arrivals_arrived (by simp [Note.isArrival]))

end Rounds

/-- What is no step of a thread makes nobody arrive and wakes nobody who has arrived. -/
theorem World.isWaiting_other {move : Move} (moves : w.move move = some (v, notes))
    (other : move ≠ .run thread) (phase : Nat) :
    v.isWaiting ref phase thread = w.isWaiting ref phase thread :=
  World.isAt_other (fun _ => rfl) (fun rouses => by cases rouses <;> rfl) moves other

theorem World.phaser_other {move : Move} (moves : w.move move = some (v, notes))
    (other : ∀ thread, move ≠ .run thread) : v.phaser ref = w.phaser ref := by
  cases move with
  | run thread => exact absurd rfl (other thread)
  | submit thread op =>
    obtain ⟨u, submit, same⟩ := Option.map_eq_some_iff.mp moves
    obtain ⟨rfl, rfl⟩ := Prod.mk.inj same
    unfold World.submit at submit
    split at submit
    · obtain rfl := Option.some.inj submit
      rfl
    · simp at submit
  | elapse span =>
    obtain ⟨rfl, rfl⟩ := Prod.mk.inj (Option.some.inj moves)
    rfl
  | rouse thread =>
    obtain ⟨rfl, rfl⟩ := Prod.mk.inj (Option.some.inj moves)
    unfold World.rouse
    split
    · exact World.phaser_modifyLock _ _
    · rfl
    · split <;> rfl
    · rfl

theorem Rounds.move {move : Move} (rounds : Rounds ref entries w) (laid : w.IsLaid)
    (moves : w.move move = some (v, notes))
    (ordered : inOrder ref [] (entries ++ (⟨w, move, notes⟩ : Moment).observed) = true) :
    Rounds ref (entries ++ (⟨w, move, notes⟩ : Moment).observed) v ∧
      Moves ref (entries ++ (⟨w, move, notes⟩ : Moment).observed) w v := by
  by_cases runs : ∃ self, move = .run self
  · obtain ⟨self, rfl⟩ := runs
    rw [Moment.observed_run] at ordered ⊢
    rw [inOrder_append, Bool.and_eq_true] at ordered
    exact rounds.step laid moves ordered.2
  · have other (self : ThreadId) : move ≠ .run self := fun same => runs ⟨self, same⟩
    have silent : (⟨w, move, notes⟩ : Moment).observed = [] := by
      cases move with
      | run self => exact absurd rfl (other self)
      | _ => rfl
    rw [silent, List.append_nil]
    have same : v.phaser ref = w.phaser ref := World.phaser_other moves other
    refine ⟨rounds.calm same rfl (fun _ _ => rfl)
      (fun thread => World.isWaiting_other moves (other thread) _) (fun phase thread => ?_),
      .inl (congrArg Phaser.phase same)⟩
    rw [World.isWaiting_other moves (other thread)]
    exact id

theorem Course.rounds {custom : World → ThreadId → Prop} {moments : List Moment}
    (idle : ∀ thread, w.stack thread = []) (vacant : (w.phaser ref).parties = 0)
    (unmet : (w.phaser ref).arrived = 0) (course : Course custom w moments v)
    (ordered : inOrder ref [] (observations moments) = true) :
    Rounds ref (observations moments) v := by
  induction course with
  | nil =>
    have nobody (phase : Nat) (thread : ThreadId) : w.isWaiting ref phase thread = false :=
      World.isAt_nil (idle thread)
    exact ⟨List.nodup_nil, vacant, unmet, .inl unmet, fun waits => by simp [nobody] at waits,
      fun thread => by rw [nobody]; rfl, fun _ _ _ => rfl⟩
  | snoc course _ moves ih =>
    rw [observations_append, observations_cons, observations_nil, List.append_nil] at ordered ⊢
    have before := ordered
    rw [inOrder_append, Bool.and_eq_true] at before
    have laid : World.IsLaid _ := course.isLaid fun thread => by
      rw [idle]
      trivial
    exact ((ih before.1).move laid moves ordered).1

/-- Whoever waits for the phase in progress waits for a party that has not arrived. -/
theorem Rounds.awaits (rounds : Rounds ref entries w)
    (waits : w.isWaiting ref (w.phaser ref).phase thread = true) :
    ∃ other ∈ enrolled ref [] entries, arrivals ref (w.phaser ref).phase other entries = 0 := by
  have some : 0 < (w.phaser ref).arrived := by
    rw [rounds.arrived]
    exact List.countP_pos_iff.mpr ⟨thread, (rounds.waiting waits).1, waits⟩
  have short : (enrolled ref [] entries).countP
      (fun thread => w.isWaiting ref (w.phaser ref).phase thread) <
        (enrolled ref [] entries).length := by
    rw [← rounds.arrived, ← rounds.parties]
    exact rounds.short.resolve_left (Nat.ne_of_gt some)
  obtain ⟨other, party, away⟩ : ∃ other ∈ enrolled ref [] entries,
      ¬ w.isWaiting ref (w.phaser ref).phase other = true := by
    by_contra none
    have all : ∀ other ∈ enrolled ref [] entries,
        w.isWaiting ref (w.phaser ref).phase other = true :=
      fun other party => by_contra fun away => none ⟨other, party, away⟩
    exact absurd (List.countP_eq_length.mpr all) (Nat.ne_of_lt short)
  exact ⟨other, party, by rw [rounds.once, if_neg away]⟩

/-- A call that waits for a phase that is over returns the next one, as soon as it goes on. -/
theorem World.released {phase : Nat}
    (stack : w.stack thread = .arrival { phaser := ref, recorded := some phase } :: rest)
    (ended : (w.phaser ref).phase = phase + 1) :
    ∃ next notes, w.move (.run thread) = some (next, notes) ∧
      (⟨w, .run thread, notes⟩ : Moment).Replies thread rest (.count (phase + 1)) := by
  have step : (Frame.arrival { phaser := ref, recorded := some phase }).advance thread w =
      some ⟨w, .reply (.count (phase + 1)), []⟩ := by
    simp [Frame.advance, Arrival.advance, ended, Effect.reply]
  exact ⟨_, _, World.move_of_advance stack step, rfl, _, _, stack, step, rfl⟩

/-- The step by which the call on top of this stack arrives at a phase. -/
structure Moment.Arrives (ref : PhaserRef) (phase : Nat) (thread : ThreadId) (rest : List Frame)
    (moment : Moment) : Prop where
  runs : moment.move = .run thread
  stands : moment.world.stack thread = .arrival { phaser := ref } :: rest
  phase : (moment.world.phaser ref).phase = phase

/-- What those who use a phaser can rely on, after these moments. -/
structure Barrier (ref : PhaserRef) (moments : List Moment) (v : World) : Prop where
  /-- The phase moves by one at a time, and only when each of the parties there are then, and nobody
  else, has arrived at it, once. -/
  meets : ∀ {pre moment post next}, moments = pre ++ moment :: post →
    moment.world.move moment.move = some (next, moment.notes) →
    Rounds.Moves ref (observations (pre ++ [moment])) moment.world next
  /-- A call that arrives at a phase moves it on and returns the next one at once, or its next step
  comes after the phase has moved on, and returns the next one. -/
  returns : ∀ {pre moment post phase thread rest}, moments = pre ++ moment :: post →
    moment.Arrives ref phase thread rest →
    (thread, .arrived ref phase) ∈ moment.observed ∧
      ((∃ next, moment.world.move moment.move = some (next, moment.notes) ∧
          (next.phaser ref).phase = phase + 1 ∧ moment.Replies thread rest (.count (phase + 1))) ∨
        ∀ {mid last later}, post = mid ++ last :: later →
          (∀ other ∈ mid, other.move ≠ .run thread) → last.move = .run thread →
          (last.world.phaser ref).phase = phase + 1 ∧
            last.Replies thread rest (.count (phase + 1)))
  /-- A call that has arrived waits for a party that has not, or can return. -/
  waits : ∀ {phase thread rest},
    v.stack thread = .arrival { phaser := ref, recorded := some phase } :: rest →
    ((v.phaser ref).phase = phase ∧ ∃ other ∈ enrolled ref [] (observations moments),
        arrivals ref phase other (observations moments) = 0) ∨
      (v.phaser ref).phase = phase + 1 ∧ ∃ next notes, v.move (.run thread) = some (next, notes) ∧
        (⟨v, .run thread, notes⟩ : Moment).Replies thread rest (.count (phase + 1))

/-- An arrival moves the phase on and returns, or waits. -/
theorem World.arrives (stack : w.stack thread = .arrival { phaser := ref } :: rest)
    (moves : w.move (.run thread) = some (v, notes)) :
    .arrived ref (w.phaser ref).phase ∈ notes ∧
      ((v.phaser ref).phase = (w.phaser ref).phase + 1 ∧
          (⟨w, .run thread, notes⟩ : Moment).Replies thread rest
            (.count ((w.phaser ref).phase + 1)) ∨
        v.stack thread =
          .arrival { phaser := ref, recorded := some (w.phaser ref).phase } :: rest) := by
  obtain ⟨frame, below, effect, top, step, rfl, rfl⟩ := World.step_eq_some moves
  obtain ⟨rfl, rfl⟩ := List.cons.inj (stack.symm.trans top)
  have advance := step
  simp only [Frame.advance, Arrival.advance] at advance
  split at advance <;> obtain rfl := Option.some.inj advance
  · rename_i last
    refine ⟨by simp, .inl ⟨?_, rfl, _, _, stack, step, rfl⟩⟩
    simp [World.phaser_setPhaser, Phaser.arrive_phase, last]
  · exact ⟨by simp, .inr (by rw [World.stack_setStack, if_pos rfl]; rfl)⟩

/-- A call that goes on after it has waited finds the next phase, and not a later one. -/
theorem Rounds.returns {phase : Nat} (rounds : Rounds ref entries w)
    (stack : w.stack thread = .arrival { phaser := ref, recorded := some phase } :: rest)
    (moves : w.move (.run thread) = some (v, notes)) :
    (w.phaser ref).phase = phase + 1 ∧
      (⟨w, .run thread, notes⟩ : Moment).Replies thread rest (.count (phase + 1)) := by
  obtain ⟨frame, below, effect, top, step, rfl, rfl⟩ := World.step_eq_some moves
  obtain ⟨rfl, rfl⟩ := List.cons.inj (stack.symm.trans top)
  have waiting := World.isWaiting_iff.mpr ⟨rest, stack⟩
  have ended : (w.phaser ref).phase = phase + 1 :=
    (rounds.waiting waiting).2.resolve_left (Frame.waits_on (by simp [Frame.isWaiting]) step)
  obtain ⟨next, noted, moved, replies⟩ := World.released stack ended
  obtain ⟨rfl, rfl⟩ := Prod.mk.inj (Option.some.inj (moves.symm.trans moved))
  exact ⟨ended, replies⟩

/-- A call that has arrived stays where it is as long as its thread does not go on. -/
theorem Course.arrival_stays {custom : World → ThreadId → Prop} {moments : List Moment} {a : Arrival}
    (course : Course custom w moments v) (others : ∀ moment ∈ moments, moment.move ≠ .run thread)
    (stack : w.stack thread = .arrival a :: rest) : v.stack thread = .arrival a :: rest := by
  induction course with
  | nil => exact stack
  | snoc _ _ moves ih =>
    rw [List.forall_mem_append] at others
    have before := ih others.1
    obtain ⟨-, same | ⟨op, bare, -⟩ | ⟨frame, frame', below, from_, -, rouses⟩⟩ :=
      World.move_other moves (others.2 _ List.mem_cons_self)
    · exact same.trans before
    · simp [before] at bare
    · obtain ⟨rfl, -⟩ := List.cons.inj (before.symm.trans from_)
      cases rouses

/-- A phaser that nobody is a party of at first, and whose users keep to their order, is a barrier. -/
theorem barrier_rounds {custom : World → ThreadId → Prop} {moments : List Moment}
    (idle : ∀ thread, w.stack thread = []) (vacant : (w.phaser ref).parties = 0)
    (unmet : (w.phaser ref).arrived = 0) (course : Course custom w moments v)
    (ordered : inOrder ref [] (observations moments) = true) : Barrier ref moments v := by
  have rounds {early : List Moment} {u : World} (before : Course custom w early u)
      (parts : ∃ later, moments = early ++ later) : Rounds ref (observations early) u := by
    obtain ⟨later, parts⟩ := parts
    rw [parts, observations_append, inOrder_append, Bool.and_eq_true] at ordered
    exact before.rounds idle vacant unmet ordered.1
  refine ⟨?_, ?_, ?_⟩
  · intro pre moment post next parts moved
    obtain ⟨_, before, -, -, -⟩ := course.split parts
    have laid : World.IsLaid _ := before.isLaid fun thread => by
      rw [idle]
      trivial
    have due : inOrder ref [] (observations pre ++ moment.observed) = true := by
      rw [parts, observations_append, observations_cons, ← List.append_assoc, inOrder_append,
        Bool.and_eq_true] at ordered
      exact ordered.1
    have moves := ((rounds before ⟨_, parts⟩).move laid moved due).2
    simpa using moves
  · intro pre moment post phase thread rest parts arrives
    obtain ⟨next, before, allowed, moved, after⟩ := course.split parts
    obtain ⟨world, move, notes⟩ := moment
    obtain ⟨rfl, stands, rfl⟩ := arrives
    obtain ⟨told, ⟨ended, replies⟩ | waits⟩ := World.arrives stands moved
    · exact ⟨Moment.mem_observed.mpr ⟨rfl, told⟩, .inl ⟨next, moved, ended, replies⟩⟩
    · refine ⟨Moment.mem_observed.mpr ⟨rfl, told⟩, .inr fun {mid last later} more others runs => ?_⟩
      subst more
      obtain ⟨_, during, -, returned, -⟩ := after.split rfl
      obtain ⟨world', move', notes'⟩ := last
      obtain rfl : move' = .run thread := runs
      have reached := before.trans ((Course.single allowed moved).trans during)
      exact (rounds reached ⟨⟨world', .run thread, notes'⟩ :: later, by simp [parts]⟩).returns
        (during.arrival_stays others waits) returned
  · intro phase thread rest stack
    have rounds := rounds course ⟨[], (List.append_nil moments).symm⟩
    have waits := World.isWaiting_iff.mpr ⟨rest, stack⟩
    obtain rfl | ended := (rounds.waiting waits).2
    · exact .inl ⟨rfl, rounds.awaits waits⟩
    · exact .inr ⟨ended, World.released stack ended⟩

/-- The thread that arrived first is still asleep when the other one arrives at the next phase. It
departs once it has woken up, which releases the other one. -/
def twoRounds : List Move :=
  Move.repeated [
    (1, .submit 0 (.access (.phaserRegister 0))), (1, .run 0),
    (1, .submit 1 (.access (.phaserRegister 0))), (1, .run 1),
    (1, .submit 0 (.phaserArrive 0)), (2, .run 0), (1, .submit 1 (.phaserArrive 0)), (2, .run 1),
    (1, .submit 1 (.phaserArrive 0)), (2, .run 1), (1, .run 0),
    (1, .submit 0 (.access (.phaserDepart 0))), (1, .run 0), (1, .run 1)]

def Note.isReturn (phase : Nat) : Note → Bool
  | completed (.count value) => value = phase
  | _ => false

theorem Note.isReturn_iff {phase : Nat} {note : Note} :
    note.isReturn phase = true ↔ note = .completed (.count phase) := by
  unfold isReturn
  split
  · simp
  · rename_i other
    simpa using other phase

/-- The late riser returns the phase that it was released into, and its departure releases the other
one into the next. -/
theorem barrier_rounds_twoRounds : ∃ moments v, (∀ thread, World.pair.stack thread = []) ∧
    (World.pair.phaser (.loose 0)).parties = 0 ∧ (World.pair.phaser (.loose 0)).arrived = 0 ∧
    Course (fun _ _ => True) World.pair moments v ∧
    inOrder (.loose 0) [] (observations moments) = true ∧
    (0, .completed (.count 1)) ∈ observations moments ∧
    (1, .completed (.count 2)) ∈ observations moments ∧ Barrier (.loose 0) moments v := by
  have made : (World.pair.follow (fun _ _ => true) twoRounds).any (fun made =>
      inOrder (.loose 0) [] (observations made.1) &&
      shows 0 (·.isReturn 1) (observations made.1) &&
      shows 1 (·.isReturn 2) (observations made.1)) = true := by
    decide +kernel
  obtain ⟨⟨moments, v⟩, follows, state⟩ := (Option.any_eq_true _ _).mp made
  simp only [Bool.and_eq_true] at state
  obtain ⟨⟨ordered, late⟩, released⟩ := state
  have course : Course (fun _ _ => True) World.pair moments v :=
    World.course_of_follow (fun _ _ _ => trivial) follows
  exact ⟨moments, v, World.pair_isFresh.idle, rfl, rfl, course, ordered,
    (shows_iff Note.isReturn_iff).mp late, (shows_iff Note.isReturn_iff).mp released,
    barrier_rounds World.pair_isFresh.idle rfl rfl course ordered⟩

end

end StopTheWorld
